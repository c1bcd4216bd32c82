/-
Expanding the macros of a command and cutting it into its arguments:
`process_macros` and `parse_line` of common/main.c.

A pointer into the command is what is left of it, and `inputcnt` its length. The
output is written below `CFG_CBSIZE` only, `cbsize` here; what is written is the
expansion of the command, as far as it fits. A null character is put behind it
only if there is room left.

`high` counts the bytes of the line that have been looked at. `parse_line` goes
on to the next null character, wherever it is; so it stays in the buffer if
`process_macros` has put one there, which it does unless the expansion fills the
buffer.
-/
import Mathlib.Data.List.TakeWhile
import BoardStack.Base.Bytes

namespace BoardStack.Cmdline

open Base List

-- == characters

def charNull : UInt8 := 0
def charTab : UInt8 := 9
def charBlank : UInt8 := 32
def charDollar : UInt8 := 36
def charQuote : UInt8 := 39
def charParenLeft : UInt8 := 40
def charParenRight : UInt8 := 41
def charBackslash : UInt8 := 92
def charBraceLeft : UInt8 := 123
def charBraceRight : UInt8 := 125

-- == the code

/-- `state`: what is waited for. -/
inductive Waiting
  | dollar
  | opening
  | closing
  | quote
deriving DecidableEq, Repr

/-- `prev`, `varname_start` and `state`. -/
structure Scan where
  prev : UInt8
  varnameStart : List UInt8
  state : Waiting

/-- The buffer, how far `output` moved, and `outputcnt`. -/
structure Out where
  buf : Mem
  output : Nat
  outputcnt : Nat

/-- The values of variables, `getenv`. -/
abbrev Getenv := List UInt8 → Option (List UInt8)

/-- `*(output++) = c; outputcnt--;`. -/
def Out.putc (o : Out) (c : UInt8) : Out :=
  ⟨Function.update o.buf o.output c, o.output + 1, o.outputcnt - 1⟩

/-- `while ((*envval) && outputcnt)`. -/
def copyValue : List UInt8 → Out → Out
  | [], o => o
  | c :: envval, o =>
    if c ≠ charNull ∧ o.outputcnt ≠ 0 then copyValue envval (o.putc c) else o

/-- `switch (state)`, for a character and what is behind it. -/
def switchState (getenv : Getenv) (s : Scan) (c : UInt8) (input : List UInt8)
    (o : Out) : Scan × Out :=
  match s.state with
  | .dollar =>
    if c = charQuote ∧ s.prev ≠ charBackslash then
      ({ s with state := .quote }, o)
    else if c = charDollar ∧ s.prev ≠ charBackslash then
      ({ s with state := .opening }, o)
    else (s, o.putc c)
  | .opening =>
    if c = charParenLeft ∨ c = charBraceLeft then
      ({ s with state := .closing, varnameStart := input }, o)
    else
      let o := o.putc charDollar
      ({ s with state := .dollar }, if o.outputcnt ≠ 0 then o.putc c else o)
  | .closing =>
    if c = charParenRight ∨ c = charBraceRight then
      let envcnt := s.varnameStart.length - input.length - 1
      let envname := s.varnameStart.take envcnt
      ({ s with state := .dollar },
        match getenv envname with
        | none => o
        | some envval => copyValue envval o)
    else (s, o)
  | .quote =>
    if c = charQuote ∧ s.prev ≠ charBackslash then
      ({ s with state := .dollar }, o)
    else (s, o.putc c)

/-- Is one level of escape characters removed here? -/
def escapes (s : Scan) (c : UInt8) : Bool :=
  s.state != .quote && c == charBackslash && s.prev != charBackslash

/-- `while (inputcnt && outputcnt)`. -/
def macroLoop (getenv : Getenv) : List UInt8 → Scan → Out → Out
  | [], _, o => o
  | c :: input, s, o =>
    if o.outputcnt = 0 then o
    else if escapes s c then
      match input with
      | [] => o
      | c' :: input =>
        let r := switchState getenv { s with prev := c } c' input o
        macroLoop getenv input { r.1 with prev := c' } r.2
    else
      let r := switchState getenv s c input o
      macroLoop getenv input { r.1 with prev := c } r.2

/-- `process_macros`: the output buffer. -/
def processMacros (getenv : Getenv) (cbsize : Nat) (input : List UInt8) (buf : Mem) :
    Mem :=
  let o := macroLoop getenv input ⟨charNull, [], .dollar⟩ ⟨buf, 0, cbsize⟩
  if o.outputcnt ≠ 0 then Function.update o.buf o.output charNull else o.buf

-- == the expansion

/-- What a character adds to the expansion. -/
def added (getenv : Getenv) (s : Scan) (c : UInt8) (input : List UInt8) : List UInt8 :=
  match s.state with
  | .dollar =>
    if (c = charQuote ∨ c = charDollar) ∧ s.prev ≠ charBackslash then [] else [c]
  | .opening =>
    if c = charParenLeft ∨ c = charBraceLeft then [] else [charDollar, c]
  | .closing =>
    if c = charParenRight ∨ c = charBraceRight then
      ((getenv (s.varnameStart.take (s.varnameStart.length - input.length - 1))).getD []).takeWhile
          (· ≠ charNull)
    else []
  | .quote => if c = charQuote ∧ s.prev ≠ charBackslash then [] else [c]

/-- What is waited for behind a character. -/
def scanned (s : Scan) (c : UInt8) (input : List UInt8) : Scan :=
  match s.state with
  | .dollar =>
    if c = charQuote ∧ s.prev ≠ charBackslash then ⟨c, s.varnameStart, .quote⟩
    else if c = charDollar ∧ s.prev ≠ charBackslash then
      ⟨c, s.varnameStart, .opening⟩
    else ⟨c, s.varnameStart, .dollar⟩
  | .opening =>
    if c = charParenLeft ∨ c = charBraceLeft then ⟨c, input, .closing⟩
    else ⟨c, s.varnameStart, .dollar⟩
  | .closing =>
    if c = charParenRight ∨ c = charBraceRight then
      ⟨c, s.varnameStart, .dollar⟩
    else ⟨c, s.varnameStart, .closing⟩
  | .quote =>
    if c = charQuote ∧ s.prev ≠ charBackslash then ⟨c, s.varnameStart, .dollar⟩
    else ⟨c, s.varnameStart, .quote⟩

def expansion (getenv : Getenv) : List UInt8 → Scan → List UInt8
  | [], _ => []
  | c :: input, s =>
    if escapes s c then
      match input with
      | [] => []
      | c' :: input =>
        added getenv { s with prev := c } c' input
          ++ expansion getenv input (scanned { s with prev := c } c' input)
    else added getenv s c input ++ expansion getenv input (scanned s c input)

/-- The expansion of a whole command. -/
def expand (getenv : Getenv) (input : List UInt8) : List UInt8 :=
  expansion getenv input ⟨charNull, [], .dollar⟩

-- == what is written

/-- A text, as far as there is room. -/
def Out.put (o : Out) (text : List UInt8) : Out :=
  ⟨write o.buf o.output (text.take o.outputcnt),
    o.output + min o.outputcnt text.length, o.outputcnt - text.length⟩

variable {getenv : Getenv} {o : Out} {s : Scan} {c : UInt8}

lemma Out.put_nil (o : Out) : o.put [] = o := by
  simp [Out.put]

lemma Out.put_full (text : List UInt8) (h : o.outputcnt = 0) : o.put text = o := by
  obtain ⟨buf, output, outputcnt⟩ := o
  subst h
  simp [Out.put]

lemma Out.put_append (o : Out) (xs ys : List UInt8) : (o.put xs).put ys = o.put (xs ++ ys) := by
  unfold Out.put
  dsimp only
  by_cases hroom : xs.length ≤ o.outputcnt
  · have hfull : xs.take o.outputcnt = xs := take_of_length_le hroom
    rw [hfull, min_eq_right hroom, write_append, take_append, hfull, length_append]
    congr 1 <;> omega
  have hnone : o.outputcnt - xs.length = 0 := by omega
  have hsame : (xs ++ ys).take o.outputcnt = xs.take o.outputcnt := by
    rw [take_append, hnone, take_zero, append_nil]
  rw [hnone, take_zero, write_nil, hsame, length_append]
  congr 1 <;> omega

lemma Out.putc_eq (h : o.outputcnt ≠ 0) (c : UInt8) : o.putc c = o.put [c] := by
  unfold Out.putc Out.put
  rw [take_of_length_le (by simp; omega), update_eq_write]
  simp only [length_singleton]
  congr 1
  omega

lemma copyValue_eq (envval : List UInt8) (o : Out) :
    copyValue envval o = o.put (envval.takeWhile (· ≠ charNull)) := by
  induction envval generalizing o with
  | nil => exact (Out.put_nil o).symm
  | cons c envval ih =>
    unfold copyValue
    by_cases hfull : o.outputcnt = 0
    · rw [if_neg (fun h => h.2 hfull), Out.put_full _ hfull]
    by_cases hnull : c = charNull
    · rw [if_neg (fun h => h.1 hnull), takeWhile_cons_of_neg (by simp [hnull]), Out.put_nil]
    · rw [if_pos ⟨hnull, hfull⟩, ih, Out.putc_eq hfull,
        takeWhile_cons_of_pos (by simp [hnull]), Out.put_append]
      rfl

lemma switchState_eq (getenv : Getenv) (hroom : o.outputcnt ≠ 0) (s : Scan) (c : UInt8)
    (input : List UInt8) :
    { (switchState getenv s c input o).1 with prev := c } = scanned s c input ∧
    (switchState getenv s c input o).2 = o.put (added getenv s c input) := by
  obtain ⟨prev, varnameStart, state⟩ := s
  cases state with
  | dollar =>
    simp only [switchState, scanned, added]
    by_cases hescaped : prev = charBackslash
    · simp [hescaped, Out.putc_eq hroom]
    by_cases hquote : c = charQuote
    · simp [hescaped, hquote, Out.put_nil]
    · by_cases hdollar : c = charDollar
      · have hother : charDollar ≠ charQuote := by decide
        simp [hescaped, hdollar, hother, Out.put_nil]
      · simp [hquote, hdollar, Out.putc_eq hroom]
  | opening =>
    simp only [switchState, scanned, added]
    split_ifs with hopen hleft
    · exact ⟨rfl, (Out.put_nil o).symm⟩
    · refine ⟨rfl, ?_⟩
      rw [Out.putc_eq hleft, Out.putc_eq hroom, Out.put_append]
      rfl
    have hone : o.outputcnt = 1 := by
      have hput : o.outputcnt - 1 = 0 := not_not.mp hleft
      omega
    refine ⟨rfl, ?_⟩
    have hused : (o.put [charDollar]).outputcnt = 0 := by simp [Out.put, hone]
    have hsame := Out.put_full [c] hused
    rw [Out.put_append] at hsame
    rw [Out.putc_eq hroom]
    exact hsame.symm
  | closing =>
    simp only [switchState, scanned, added]
    split_ifs with hclose
    · refine ⟨rfl, ?_⟩
      cases getenv (varnameStart.take (varnameStart.length - input.length - 1)) with
      | none => exact (Out.put_nil o).symm
      | some envval => exact copyValue_eq envval o
    · exact ⟨rfl, (Out.put_nil o).symm⟩
  | quote =>
    simp only [switchState, scanned, added]
    split_ifs with hquote
    · exact ⟨rfl, (Out.put_nil o).symm⟩
    · exact ⟨rfl, Out.putc_eq hroom c⟩

lemma macroLoop_eq (input : List UInt8) (s : Scan) (o : Out) :
    macroLoop getenv input s o = o.put (expansion getenv input s) := by
  fun_induction macroLoop getenv input s o with
  | case1 s o => exact (Out.put_nil o).symm
  | case2 c input s o hfull => exact (Out.put_full _ hfull).symm
  | case3 c s o hroom hescapes =>
    rw [expansion, if_pos hescapes]
    exact (Out.put_nil o).symm
  | case4 c s o hroom hescapes c' input r ih =>
    obtain ⟨hscan, hput⟩ := switchState_eq getenv hroom { s with prev := c } c' input
    have htext : expansion getenv (c :: c' :: input) s = added getenv { s with prev := c } c' input
          ++ expansion getenv input (scanned { s with prev := c } c' input) := by
      rw [expansion, if_pos hescapes]
    rw [ih, htext, ← Out.put_append, ← hput, ← hscan]
  | case5 c input s o hroom hescapes r ih =>
    obtain ⟨hscan, hput⟩ := switchState_eq getenv hroom s c input
    have htext : expansion getenv (c :: input) s = added getenv s c input
          ++ expansion getenv input (scanned s c input) := by
      conv_lhs => unfold expansion
      exact if_neg hescapes
    rw [ih, htext, ← Out.put_append, ← hput, ← hscan]

lemma processMacros_eq (getenv : Getenv) (cbsize : Nat) (input : List UInt8) (buf : Mem) :
    processMacros getenv cbsize input buf = if (expand getenv input).length < cbsize then
          write buf 0 (expand getenv input ++ [charNull])
        else write buf 0 ((expand getenv input).take cbsize) := by
  unfold processMacros
  rw [macroLoop_eq]
  unfold Out.put expand
  dsimp only
  generalize expansion getenv input ⟨charNull, [], .dollar⟩ = text
  by_cases hfits : text.length < cbsize
  · have hend := update_write_end buf 0 text charNull
    rw [if_pos (by omega), if_pos hfits, take_of_length_le (by omega),
      min_eq_right (by omega : text.length ≤ cbsize), hend]
  · rw [if_neg (by omega), if_neg hfits]

lemma processMacros_inside (getenv : Getenv) (cbsize : Nat) (input : List UInt8) (buf : Mem) :
    ∀ i, cbsize ≤ i → processMacros getenv cbsize input buf i = buf i := by
  intro i hi
  rw [processMacros_eq]
  split_ifs with hfits
  · apply write_of_outside
    rw [length_append, length_singleton]
    omega
  · apply write_of_outside
    rw [length_take]
    omega

open Option

-- == the code

/-- `while ((*line == ' ') || (*line == '\t'))`. -/
def skipBlanks (buf : Mem) : Nat → Nat → Option Nat
  | 0, _ => none
  | fuel + 1, line =>
    if buf line = charBlank ∨ buf line = charTab then
      skipBlanks buf fuel (line + 1)
    else some line

/-- `while (*line && (*line != ' ') && (*line != '\t'))`. -/
def skipWord (buf : Mem) : Nat → Nat → Option Nat
  | 0, _ => none
  | fuel + 1, line =>
    if buf line ≠ charNull ∧ buf line ≠ charBlank ∧ buf line ≠ charTab then
      skipWord buf fuel (line + 1)
    else some line

/-- What `parse_line` returns and leaves: the arguments as offsets into the line,
whether a null pointer is behind them, the line, and how much of it was read. -/
structure Parsed where
  nargs : Nat
  argv : List Nat
  nullBehind : Bool
  buf : Mem
  high : Nat

/-- `while (nargs < CFG_MAXARGS)`; the first argument is how many are left. -/
def parseLoop (fuel : Nat) : Nat → Nat → Parsed → Option Parsed
  | 0, _, s => some s
  | left + 1, line, s => do
    let line ← skipBlanks s.buf fuel line
    let s := { s with high := max s.high (line + 1) }
    if s.buf line = charNull then return { s with nullBehind := true }
    let s := { s with nargs := s.nargs + 1, argv := s.argv ++ [line] }
    let line ← skipWord s.buf fuel line
    let s := { s with high := max s.high (line + 1) }
    if s.buf line = charNull then return { s with nullBehind := true }
    let s := { s with buf := Function.update s.buf line charNull }
    parseLoop fuel left (line + 1) s

def parseLine (maxargs fuel : Nat) (line : Mem) : Option Parsed :=
  parseLoop fuel maxargs 0 ⟨0, [], false, line, 0⟩

-- == the scans

variable {buf : Mem} {fuel line stop : Nat}

/-- A scan that does not pass `stop` ends there at the latest. -/
lemma scan_ends {scan : Nat → Nat → Option Nat} {P : Nat → Prop} [DecidablePred P]
    (hscan : ∀ fuel line, scan (fuel + 1) line = if P line then scan fuel (line + 1) else some line)
    (hstop : ¬P stop) (hline : line ≤ stop) (hfuel : stop < fuel + line) :
    ∃ e, scan fuel line = some e ∧ e ≤ stop := by
  induction fuel generalizing line with
  | zero => omega
  | succ fuel ih =>
    rw [hscan]
    split_ifs with hin
    · have hne : line ≠ stop := by
        rintro rfl
        exact hstop hin
      exact ih (lt_of_le_of_ne hline hne) (by omega)
    · exact ⟨line, rfl, hline⟩

lemma parseLoop_reads {s : Parsed} (left : Nat) (hnull : s.buf stop = charNull)
    (hline : line ≤ stop) (hfuel : stop < fuel) (hhigh : s.high ≤ stop + 1) :
    ∃ r, parseLoop fuel left line s = some r ∧ r.high ≤ stop + 1 := by
  induction left generalizing line s with
  | zero => exact ⟨s, rfl, hhigh⟩
  | succ left ih =>
    have henough : ∀ pos, stop < fuel + pos := by
      intro pos
      omega
    obtain ⟨b, hb, hbstop⟩ := scan_ends (fun fuel line => skipBlanks.eq_2 s.buf line fuel)
      (by rw [hnull]; decide) hline (henough line)
    obtain ⟨e, he, hestop⟩ := scan_ends (fun fuel line => skipWord.eq_2 s.buf line fuel)
      (fun h => h.1 hnull) hbstop (henough b)
    rw [parseLoop, hb]
    simp only [bind_eq_bind, bind_some]
    split_ifs with hend
    · exact ⟨_, rfl, by dsimp only; omega⟩
    rw [he]
    simp only [bind_some]
    split_ifs with hwordEnd
    · exact ⟨_, rfl, by dsimp only; omega⟩
    have hne : e ≠ stop := by
      rintro rfl
      exact hwordEnd hnull
    apply ih
    · dsimp only
      rw [Function.update_of_ne hne.symm]
      exact hnull
    · omega
    · dsimp only
      omega

lemma parseLine_reads (maxargs : Nat) (hnull : buf stop = charNull) (hfuel : stop < fuel) :
    ∃ r, parseLine maxargs fuel buf = some r ∧ r.high ≤ stop + 1 :=
  parseLoop_reads (s := ⟨0, [], false, buf, 0⟩) maxargs hnull (Nat.zero_le stop)
    hfuel (Nat.zero_le _)

-- == no null character in an expansion

/-- What is added for a character has no null character. -/
lemma added_ne_null (getenv : Getenv) (s : Scan) {c : UInt8} (hc : c ≠ charNull)
    (input : List UInt8) : ∀ d ∈ added getenv s c input, d ≠ charNull := by
  intro d hd
  unfold added at hd
  split at hd
  · split_ifs at hd
    · cases hd
    · rwa [mem_singleton.mp hd]
  · split_ifs at hd
    · cases hd
    · rcases mem_cons.mp hd with rfl | hd
      · decide
      · rwa [mem_singleton.mp hd]
  · split_ifs at hd
    · have hvalue := mem_takeWhile_imp hd
      exact of_decide_eq_true hvalue
    · cases hd
  · split_ifs at hd
    · cases hd
    · rwa [mem_singleton.mp hd]

lemma expansion_ne_null (getenv : Getenv) (input : List UInt8) (s : Scan)
    (h : ∀ c ∈ input, c ≠ charNull) : ∀ d ∈ expansion getenv input s, d ≠ charNull := by
  fun_induction expansion getenv input s with
  | case1 => exact forall_mem_nil _
  | case2 => exact forall_mem_nil _
  | case3 =>
    rename_i ih
    simp only [forall_mem_cons] at h
    exact forall_mem_append.mpr ⟨added_ne_null getenv _ h.2.1 _, ih h.2.2⟩
  | case4 =>
    rename_i ih
    rw [forall_mem_cons] at h
    exact forall_mem_append.mpr ⟨added_ne_null getenv _ h.1 _, ih h.2⟩

/-- An expansion that does not fit leaves no null character in the buffer. -/
lemma processMacros_ne_null {getenv : Getenv} {cbsize : Nat} {token : List UInt8} (buf : Mem)
    (htoken : ∀ c ∈ token, c ≠ charNull) (hlong : cbsize ≤ (expand getenv token).length)
    {n : Nat} (hn : n < cbsize) : processMacros getenv cbsize token buf n ≠ charNull := by
  have hat : ((expand getenv token).take cbsize)[n]? = some ((expand getenv token)[n]) := by
    rw [List.getElem?_take_of_lt hn, List.getElem?_eq_getElem]
  have hchar := write_getElem? (m := buf) (a := 0) hat
  rw [zero_add] at hchar
  rw [processMacros_eq, if_neg (by omega), hchar]
  exact expansion_ne_null getenv token _ htoken _ (getElem_mem _)

-- == the result

/-- The expansion is written into the buffer with a null character behind it, and
`parse_line` does not look behind the buffer: this holds if and only if the
expansion is shorter than the buffer. -/
theorem macros_terminated_iff (getenv : Getenv) (cbsize maxargs : Nat) (token : List UInt8)
    (buf : Mem) (htoken : ∀ c ∈ token, c ≠ charNull) :
    ((∀ i, cbsize ≤ i → processMacros getenv cbsize token buf i = buf i) ∧
      (∃ n, n < cbsize ∧ processMacros getenv cbsize token buf n = charNull) ∧
      ∃ r, parseLine maxargs cbsize (processMacros getenv cbsize token buf) = some r ∧
        r.high ≤ cbsize) ↔
    (expand getenv token).length < cbsize := by
  constructor
  · rintro ⟨-, ⟨n, hn, hnull⟩, -⟩
    by_contra hlong
    exact processMacros_ne_null buf htoken (not_lt.mp hlong) hn hnull
  intro hfits
  have hnull : processMacros getenv cbsize token buf (expand getenv token).length = charNull := by
    have hlast : (expand getenv token ++ [charNull])[(expand getenv token).length]?
        = some charNull := by
      rw [List.getElem?_append_right le_rfl, Nat.sub_self]
      rfl
    have hat := write_getElem? (m := buf) (a := 0) hlast
    rw [zero_add] at hat
    rw [processMacros_eq, if_pos hfits]
    exact hat
  obtain ⟨r, hparse, hhigh⟩ := parseLine_reads maxargs hnull hfits
  exact ⟨processMacros_inside getenv cbsize token buf, ⟨_, hfits, hnull⟩, r, hparse, by omega⟩

/-- `$(a)`. -/
def dollarA : List UInt8 := [charDollar, charParenLeft, 97, charParenRight]

lemma expand_dollarA (value : List UInt8) :
    expand (fun _ => some value) dollarA = value.takeWhile (· ≠ charNull) ++ [] := rfl

theorem short_value_terminated :
    ∃ n, n < 256 ∧ processMacros (fun _ => some [118]) 256 dollarA (fun _ => 1) n = charNull :=
  ((macros_terminated_iff (fun _ => some [118]) 256 16 dollarA (fun _ => 1)
    (by simp [dollarA, charNull, charDollar, charParenLeft, charParenRight])).mpr (by decide)).2.1

lemma skipWord_to (hnull : buf stop = charNull)
    (hword : ∀ i, line ≤ i → i < stop → buf i ≠ charNull ∧ buf i ≠ charBlank ∧ buf i ≠ charTab)
    (hline : line ≤ stop) (hfuel : stop < fuel + line) :
    skipWord buf fuel line = some stop := by
  induction fuel generalizing line with
  | zero => omega
  | succ fuel ih =>
    unfold skipWord
    by_cases hend : line = stop
    · rw [if_neg (fun h => h.1 (hend ▸ hnull)), hend]
    rw [if_pos (hword line le_rfl (by omega))]
    apply ih
    · intro i hi
      exact hword i (by omega)
    · omega
    · omega

lemma parseLine_word (maxargs : Nat) (hnull : buf stop = charNull) (hpos : 0 < stop)
    (hword : ∀ i, i < stop → buf i ≠ charNull ∧ buf i ≠ charBlank ∧ buf i ≠ charTab)
    (hfuel : stop < fuel) :
    parseLine (maxargs + 1) fuel buf = some ⟨1, [0], true, buf, stop + 1⟩ := by
  obtain ⟨hfirst, hblank, htab⟩ := hword 0 hpos
  have hblanks : skipBlanks buf fuel 0 = some 0 := by
    rcases fuel with _ | fuel
    · omega
    rw [skipBlanks, if_neg]
    rintro (h | h)
    · exact hblank h
    · exact htab h
  have hend : skipWord buf fuel 0 = some stop :=
    skipWord_to hnull (fun i _ => hword i) (Nat.zero_le stop) (by omega)
  unfold parseLine parseLoop
  simp only [hblanks, hend, bind_eq_bind, bind_some, hfirst, if_false, hnull, if_true]
  rw [Nat.max_eq_right (by omega)]
  rfl

/-- The output for `$(a)` when the value of `a` has `n` characters `v`, and
as many bytes are free. -/
lemma processMacros_filled (n : Nat) :
    processMacros (fun _ => some (replicate n 118)) n dollarA (fun _ => 0)
      = write (fun _ => 0) 0 (replicate n 118) := by
  have htext : expand (fun _ => some (replicate n 118)) dollarA = replicate n 118 := by
    rw [expand_dollarA, append_nil, takeWhile_replicate, if_pos (by decide)]
  rw [processMacros_eq, htext, length_replicate, if_neg (lt_irrefl n), take_of_length_le (by simp)]

lemma write_replicate {n i : Nat} (c : UInt8) :
    write (fun _ => 0) 0 (replicate n c) i = if i < n then c else 0 := by
  unfold write
  rw [if_pos (Nat.zero_le i), Nat.sub_zero, List.getElem?_replicate]
  split_ifs <;> rfl

/-- A value of 256 characters fills the buffer: there is no null character in
it, and `parse_line` looks behind it. -/
theorem long_value_unterminated :
    dollarA.length < 256 ∧
    (∀ i, i < 256 → processMacros
      (fun _ => some (replicate 256 118)) 256 dollarA (fun _ => 0) i ≠ charNull) ∧
    ∃ r, parseLine 16 300 (processMacros
      (fun _ => some (replicate 256 118)) 256 dollarA fun _ => 0) = some r ∧
      r.high = 257 := by
  rw [processMacros_filled]
  have hchar : ∀ i, i < 256 → write (fun _ => 0) 0 (replicate 256 (118 : UInt8)) i = 118 := by
    intro i hi
    rw [write_replicate, if_pos hi]
  have hend : write (fun _ => 0) 0 (replicate 256 (118 : UInt8)) 256 = charNull := by
    rw [write_replicate, if_neg (lt_irrefl 256)]
    rfl
  refine ⟨by decide, ?_, _, parseLine_word 15 hend (by decide) ?_ (by decide), rfl⟩
  all_goals
    intro i hi
    rw [hchar i hi]
    decide

end BoardStack.Cmdline
