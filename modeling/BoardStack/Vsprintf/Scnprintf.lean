/-
`scnprintf`, and the few formats that bitmaps are printed with.

`Prints` says what a format makes of its arguments, wherever the output goes.
A conversion is one or two turns of the loop, so that formats are put together
turn by turn (`Prints.turn`); what is left are the texts of `%s`, `%d` and
`%0*lx` themselves. Texts that fit are appended to what a buffer holds
(`scnprintf_append`).
-/
import BoardStack.Vsprintf.Numeral

namespace BoardStack.Vsprintf

open Base List Nat

/-- `scnprintf`: the characters stored, and memory. -/
def scnprintf (env : Env) (mem : Nat → UInt8) (buf size : Nat) (fmt : Format)
    (args : List Arg) : Option (Int × (Nat → UInt8)) :=
  (vsnprintf env mem buf size fmt args).map fun r =>
    (if size ≤ unsigned env.word.bits r.ret then int ((size : Int) - 1)
      else r.ret, r.mem)

/-- The loop of `simple_strtoul`, with an `unsigned long` of `w` bits. -/
def strtoulLoop (w base : Nat) : List UInt8 → Nat → Nat × List UInt8
  | [], result => (result, [])
  | c :: cp, result =>
    if isxdigit c then
      if base ≤ digitValue c then (result, c :: cp)
      else strtoulLoop w base cp ((result * base + digitValue c) % 2 ^ w)
    else (result, c :: cp)

/-- `simple_strtoul`: the value and `*endp`. -/
def simpleStrtoul (w : Nat) (cp : List UInt8) (base : Nat) : Nat × List UInt8 :=
  let base := if base = 0 then simpleGuessBase cp else base
  if base = 16 ∧ charAt cp 0 = '0'.toUInt8 ∧ toLower (charAt cp 1) = 'x'.toUInt8 then
    strtoulLoop w base (cp.drop 2) 0
  else strtoulLoop w base cp 0

-- == formats

/-- From here on, the loop puts out `text`. -/
def Prints (env : Env) (cur : Cursor) (text : List UInt8) : Prop :=
  ∀ buf out, out.sink.pos + text.length < 2 ^ env.word.bits → vsnprintfLoop env buf cur out
      = some { out with sink := out.sink.emit env.word.bits text }

section

variable {env : Env} {fmt fmt' : List UInt8} {spec spec' : PrintfSpec}
variable {args args' : List Arg} {t1 t2 : List UInt8}

lemma Prints.done (env : Env) (spec : PrintfSpec) (args : List Arg) :
    Prints env ⟨[], spec, args⟩ [] := by
  intro buf out _
  rw [vsnprintfLoop, dif_pos rfl]
  rfl

lemma Prints.turn (hne : fmt ≠ [])
    (hturn : ∀ buf out, out.sink.pos + t1.length < 2 ^ env.word.bits →
      convert env buf ⟨fmt, spec, args⟩ out = some (⟨fmt', spec', args'⟩,
        { out with sink := out.sink.emit env.word.bits t1 }))
    (hrest : Prints env ⟨fmt', spec', args'⟩ t2) :
    Prints env ⟨fmt, spec, args⟩ (t1 ++ t2) := by
  intro buf out hlt
  rw [length_append] at hlt
  have hpos := Sink.emit_pos (w := env.word.bits) (o := out.sink) (t := t1) (by omega)
  rw [vsnprintfLoop_turn hne, hturn buf out (by omega)]
  show vsnprintfLoop env buf ⟨fmt', spec', args'⟩ _ = _
  rw [hrest buf _ (by dsimp only; omega), Sink.emit_append]

end

-- == conversions

lemma pad_of_le {w : Nat} {c : UInt8} {k n : Int} (hk : 0 ≤ k) (hlo : -2147483647 ≤ n)
    (hn : n ≤ k) (hk' : k < 2147483648) (o : Sink UInt8) : pad w c k n o = (n - 1, o) := by
  have hint : int (n - 1) = n - 1 := int_eq (by omega) (by omega)
  rw [pad_eq hk, hint, if_neg (by omega), show (n - 1 - k + 1).toNat = 0 by omega]
  rfl

lemma spaceLoop_of_le {w : Nat} {len n : Int} (h : n ≤ len)
    (o : Sink UInt8) : spaceLoop w len maxTurns n o = (int (n - 1), o) := by
  rw [show maxTurns = 2147483648 + 1 from rfl, spaceLoop, if_neg (by omega)]

variable {n : Nat} {spec : PrintfSpec}

lemma number_plain (w : Nat) (o : Sink UInt8)
    (hn : n < 2 ^ 64) (hsign : numberSign spec.flags n = ([], n))
    (hpfx : numberPrefix spec = []) (hbase : spec.base = 10)
    (hzero : spec.flags.zeropad = false) (hleft : spec.flags.left = false)
    (hwidth : spec.fieldWidth = -1) (hprec : spec.precision = -1) :
    number w o n spec = o.emit w (numeral 10 (locase spec.flags) n) := by
  have hlen := numeral_length_le spec.base (locase spec.flags) (by omega) hn
  have htmp := numberTmp_eq spec.flags (.inr (.inl hbase)) hn
  unfold number
  dsimp only
  rw [hsign, hpfx, hzero, hleft, hwidth, hprec, htmp, length_reverse, reverse_reverse]
  rw [hbase] at hlen ⊢
  generalize numeral 10 (locase spec.flags) n = tmp at hlen ⊢
  simp only [Bool.false_and, Bool.or_false, Bool.false_eq_true, if_false,
    length_nil, Int.natCast_zero, sub_zero, Sink.emit_nil]
  have hint : int (-1) = -1 := int_eq (by decide) (by decide)
  have hrest : int (-1 - (tmp.length : Int)) = -1 - (tmp.length : Int) :=
    int_eq (by omega) (by omega)
  rw [if_pos (by omega : (-1 : Int) < tmp.length), hint, hrest]
  -- every padding loop finds the width spent
  have hspent : ∀ (c : UInt8) (f : Int) (o : Sink UInt8), -100 ≤ f → f ≤ 0 →
      pad w c 0 f o = (f - 1, o) :=
    fun c f o hlo hhi => pad_of_le (by decide) (by omega) hhi (by decide) o
  have hdigits : ∀ (c : UInt8) (o : Sink UInt8),
      pad w c tmp.length tmp.length o = ((tmp.length : Int) - 1, o) :=
    fun c o => pad_of_le (by omega) (by omega) (by omega) (by omega) o
  rw [hspent _ (-1 - tmp.length) _ (by omega) (by omega)]
  rw [hspent _ (-1 - tmp.length - 1) _ (by omega) (by omega)]
  rw [hdigits, hspent _ (-1 - tmp.length - 1 - 1) _ (by omega) (by omega)]

/-- `%d`. -/
def decSpec : PrintfSpec where
  type := .int
  flags := { sign := true }
  fieldWidth := -1
  base := 10
  precision := -1
  qualifier := none

lemma number_dec (w : Nat) (o : Sink UInt8) (hn : n < 2 ^ 31) :
    number w o n decSpec = o.emit w (numeral 10 0 n) := by
  have hsigned : signed 64 n = n := signed_eq (w := 63) (by omega) (by omega)
  apply number_plain w o (by omega) ?_ rfl rfl rfl rfl rfl rfl
  unfold numberSign
  rw [hsigned, if_pos (show decSpec.flags.sign = true from rfl), if_neg (by omega)]
  rfl

/-- The digits of `%0*lx`. -/
def hexDigits (width n : Nat) : List Nat :=
  List.replicate (width - (numeralDigits 16 n).length) 0 ++ numeralDigits 16 n

/-- `%0*lx`, with the width read. -/
def hexFieldSpec (width : Int) : PrintfSpec where
  type := .ulong
  flags := { zeropad := true, small := true }
  fieldWidth := width
  base := 16
  precision := -1
  qualifier := some 'l'.toUInt8

lemma number_hexField (w : Nat) (o : Sink UInt8) {width n : Nat}
    (hn : n < 2 ^ 64) (hwidth : width ≤ 100) (hfits : (numeralDigits 16 n).length ≤ width) :
    number w o n (hexFieldSpec width) = o.emit w ((hexDigits width n).map (digitChar 0x20)) := by
  have hlen : (numeral 16 0x20 n).length = (numeralDigits 16 n).length := length_map _
  have hrest : fieldRest (hexFieldSpec width) n
      = ((width - (numeralDigits 16 n).length : Nat) : Int) := by
    show int (int ((width : Int) - 0) - (if (-1 : Int) < (numeral 16 0x20 n).length
          then ((numeral 16 0x20 n).length : Int) else -1)) = _
    rw [if_pos (by omega), hlen, int_eq (x := (width : Int) - 0) (by omega)
      (by omega), int_eq (by omega) (by omega)]
    omega
  have hzeros : leadingZeros (hexFieldSpec width) n = width - (numeralDigits 16 n).length := by
    unfold leadingZeros
    rw [hrest, int_eq (by omega) (by omega)]
    show _ + ((-1 : Int) - (numeral 16 0x20 n).length).toNat = _
    omega
  have hspaces : trailingSpaces (fieldRest (hexFieldSpec width) n) = 0 := by
    rw [hrest]
    exact trailingSpaces_eq_zero (by omega) (by omega) (by omega)
  rw [number_eq o hn (.inr (.inr rfl)) rfl rfl rfl
      (show (-1 : Int) < 2147483648 by decide), hspaces, replicate_zero, append_nil]
  unfold numberText
  rw [hzeros]
  unfold hexDigits
  rw [map_append, map_replicate]
  rfl

/-- `%s`. -/
def strSpec : PrintfSpec where
  type := .str
  flags := {}
  fieldWidth := -1
  base := 10
  precision := -1
  qualifier := none

lemma string_plain (w : Nat) (o : Sink UInt8) {chars : List UInt8} (spec : PrintfSpec)
    (h : chars.length < 2147483648) (hleft : spec.flags.left = false)
    (hwidth : spec.fieldWidth = -1) (hprec : spec.precision = -1) :
    string w o (.kernel chars) spec = o.emit w chars := by
  have hchars : (if (Str.kernel chars).addr < pageSize then lit "<NULL>"
      else (Str.kernel chars).chars) = chars := if_neg (lt_irrefl pageSize)
  have hlen : strnlen chars (-1) = chars.length := if_pos (by decide)
  unfold string
  dsimp only
  rw [hchars, hprec, hlen, int_natCast h, hleft, hwidth,
    if_neg Bool.false_ne_true, spaceLoop_of_le (n := -1) (by omega)]
  rw [int_eq (by decide) (by decide), spaceLoop_of_le (by omega), Int.toNat_natCast, take_length]

-- == whole formats

/-- Between the two turns of `%0*lx`. -/
def starSpec (width : Int) : PrintfSpec where
  type := .width
  flags := { zeropad := true }
  fieldWidth := width
  base := 10
  precision := -1
  qualifier := none

lemma prints_hexChunk (env : Env) (sep : List UInt8) {width n : Nat}
    (hsep : sep.length < 2147483648) (hn : n < 2 ^ 32) (hwidth : width ≤ 100)
    (hfits : (numeralDigits 16 n).length ≤ width) :
    Prints env ⟨lit "%s%0*lx", {}, [.str (.kernel sep), .int width, .long n]⟩
      (sep ++ (hexDigits width n).map (digitChar 0x20)) := by
  have hint : int width = width := int_natCast (by omega)
  have hnum : unsigned env.word.bits (n : Int) = n := by
    apply unsigned_eq
    cases env.word with
    | w32 => exact hn
    | w64 => exact lt_trans hn (by decide)
  have h1 : formatDecode (lit "%s%0*lx") {} = (strSpec, lit "%0*lx") := by decide
  have h2 : formatDecode (lit "%0*lx") strSpec = (starSpec (-1), lit "lx") := by decide
  have h3 : formatDecode (lit "lx") (starSpec width) = (hexFieldSpec width, []) := by
    have hnot : ¬(starSpec width).fieldWidth < 0 := not_lt.mpr (Int.natCast_nonneg width)
    unfold formatDecode
    rw [show (starSpec width).type = .width from rfl]
    rw [if_neg hnot]
    rfl
  have hthird : Prints env ⟨lit "lx", starSpec width, [.long n]⟩
      ((hexDigits width n).map (digitChar 0x20) ++ []) := by
    refine Prints.turn (by decide) (fun buf out _ => ?_) (Prints.done env (hexFieldSpec width) [])
    have hfield := number_hexField env.word.bits out.sink (by omega) hwidth hfits
    unfold convert
    dsimp only
    rw [h3, ← hfield]
    nth_rewrite 2 [← hnum]
    rfl
  have hsecond : Prints env ⟨lit "%0*lx", strSpec, [.int width, .long n]⟩
      ([] ++ ((hexDigits width n).map (digitChar 0x20) ++ [])) := by
    refine Prints.turn (by decide) (fun buf out _ => ?_) hthird
    unfold convert
    rw [h2]
    dsimp only [starSpec]
    rw [hint]
    rfl
  rw [← append_nil ((hexDigits width n).map _)]
  refine Prints.turn (by decide) (fun buf out _ => ?_) hsecond
  unfold convert
  rw [h1, ← string_plain env.word.bits out.sink strSpec hsep rfl rfl rfl]
  rfl

variable {args : List Arg}

lemma convert_dec (env : Env) (hn : n < 2 ^ 31) {fmt fmt' : List UInt8}
    (hdecode : formatDecode fmt spec = (decSpec, fmt')) (buf : Nat) (out : Output) :
    convert env buf ⟨fmt, spec, .int n :: args⟩ out = some (⟨fmt', decSpec, args⟩,
        { out with sink := out.sink.emit env.word.bits (numeral 10 0 n) }) := by
  have hsigned : signed 32 (n : Int) = n := int_natCast hn
  have hnum : unsigned 64 (signed 32 (n : Int)) = n := by
    rw [hsigned]
    exact unsigned_eq (by omega)
  unfold convert
  dsimp only
  rw [hdecode, ← number_dec _ _ hn]
  nth_rewrite 2 [← hnum]
  rfl

lemma prints_dec (env : Env) (hn : n < 2 ^ 31) :
    Prints env ⟨lit "%d", {}, [.int n]⟩ (numeral 10 0 n) := by
  rw [← append_nil (numeral 10 0 n)]
  exact Prints.turn (by decide) (fun buf out _ => convert_dec env hn (by decide) buf out)
    (Prints.done env decSpec [])

lemma convert_literal (env : Env) {fmt fmt' text : List UInt8}
    {spec spec' : PrintfSpec} {out : Output} (hdecode : formatDecode fmt spec = (spec', fmt'))
    (htype : spec'.type = .none) (htext : fmt.take (fmt.length - fmt'.length) = text) (buf : Nat)
    (hlt : out.sink.pos + text.length < 2 ^ env.word.bits) :
    convert env buf ⟨fmt, spec, args⟩ out = some (⟨fmt', spec', args⟩,
      { out with sink := out.sink.emit env.word.bits text }) := by
  unfold convert
  dsimp only
  rw [hdecode, htype]
  rw [htext, copyLiteral_eq hlt]

lemma prints_range (env : Env) {n m : Nat} (hn : n < 2 ^ 31) (hm : m < 2 ^ 31) :
    Prints env ⟨lit "%d-%d", {}, [.int n, .int m]⟩
      (numeral 10 0 n ++ (lit "-" ++ numeral 10 0 m)) := by
  have hthird : Prints env ⟨lit "%d", { decSpec with type := .none },
      [.int m]⟩ (numeral 10 0 m ++ []) :=
    Prints.turn (by decide) (fun buf out _ => convert_dec env hm (by decide) buf out)
      (Prints.done env decSpec [])
  have hsecond : Prints env ⟨lit "-%d", decSpec, [.int m]⟩ (lit "-" ++ (numeral 10 0 m ++ [])) :=
    Prints.turn (by decide)
      (fun buf _ hlt => convert_literal env (by decide) rfl (by decide) buf hlt)
      hthird
  rw [← append_nil (numeral 10 0 m)]
  exact Prints.turn (by decide) (fun buf out _ => convert_dec env hn (by decide) buf out) hsecond

lemma prints_comma (env : Env) : Prints env ⟨lit ",", {}, []⟩ (lit ",") := by
  have h : Prints env ⟨lit ",", {}, []⟩ (lit "," ++ []) := Prints.turn (by decide)
      (fun buf _ hlt => convert_literal env (by decide) rfl (by decide) buf hlt)
      (Prints.done env {} [])
  rwa [append_nil] at h

-- == buffers

structure HoldsString (mem : Nat → UInt8) (buf : Nat) (text : List UInt8) : Prop where
  chars : ∀ i c, text[i]? = some c → mem (buf + i) = c
  nul : mem (buf + text.length) = 0

lemma scnprintf_append {env : Env} {mem : Nat → UInt8} {buf size : Nat} {fmt : Format}
    {t1 t2 : List UInt8} (hsize : size < 2147483648) (hend : buf + size < 2 ^ env.word.bits)
    (hfits : t1.length + t2.length < size) (hchars : ∀ i c, t1[i]? = some c → mem (buf + i) = c)
    (hprints : Prints env ⟨fmt.chars, {}, args⟩ t2) :
    ∃ mem', scnprintf env mem (buf + t1.length) (size - t1.length) fmt args
        = some ((t2.length : Int), mem') ∧
      HoldsString mem' buf (t1 ++ t2) := by
  have hloop := hprints (buf + t1.length)
    ⟨⟨mem, buf + t1.length, buf + t1.length + (size - t1.length), []⟩, []⟩
    (by dsimp only; omega)
  obtain ⟨r, hrun, htrunc⟩ := truncated_of_loop (by omega) (by omega) (by omega) (by omega) hloop
  refine ⟨r.mem, ?_, ?_, ?_⟩
  · unfold scnprintf
    rw [hrun, Option.map_some, htrunc.ret, unsigned_eq (by omega), if_neg (by omega)]
  · intro i c hi
    by_cases hlt : i < t1.length
    · rw [List.getElem?_append_left hlt] at hi
      rw [htrunc.outside _ (.inl (by omega))]
      exact hchars i c hi
    · rw [List.getElem?_append_right (by omega)] at hi
      have hlen := (List.getElem?_eq_some_iff.mp hi).1
      have hin := htrunc.inside (i - t1.length) c (by omega) hi
      rwa [show buf + t1.length + (i - t1.length) = buf + i by omega] at hin
  · have hnul := htrunc.nul (by omega)
    rw [length_append]
    rwa [min_eq_right (by omega), add_assoc] at hnul

-- == parsing

def decimal (t : List UInt8) : Nat := readDigits 10 (t.map digitValue) 0

lemma digitValue_lt_iff (c : UInt8) : isxdigit c = true ∧ digitValue c < 10 ↔ isdigit c = true := by
  unfold digitValue isxdigit
  cases hc : isdigit c with
  | true =>
    rw [isdigit, Bool.and_eq_true, decide_eq_true_eq, decide_eq_true_eq, UInt8.le_iff_toNat_le,
      UInt8.le_iff_toNat_le] at hc
    refine iff_of_true ⟨rfl, ?_⟩ rfl
    show c.toNat - 48 < 10
    exact Nat.sub_lt_left_of_lt_add hc.1 (lt_succ_of_le hc.2)
  | false =>
    refine iff_of_false ?_ Bool.false_ne_true
    rw [if_neg Bool.false_ne_true]
    omega

lemma strtoulLoop_eq {w r n : Nat} (hr : r = n % 2 ^ w) (cp : List UInt8) :
    strtoulLoop w 10 cp r = (readDigits 10 ((cp.takeWhile isdigit).map digitValue) n % 2 ^ w,
        cp.dropWhile isdigit) := by
  induction cp generalizing r n with
  | nil => rw [strtoulLoop, hr]; rfl
  | cons c cp ih =>
    have hiff := digitValue_lt_iff c
    rw [strtoulLoop]
    by_cases hc : isdigit c = true
    · have hmod : (r * 10 + digitValue c) % 2 ^ w = (n * 10 + digitValue c) % 2 ^ w := by
        rw [hr, add_mod, mod_mul_mod, ← add_mod]
      rw [if_pos (hiff.mpr hc).1, if_neg (not_le.mpr (hiff.mpr hc).2), ih hmod,
        takeWhile_cons_of_pos hc, dropWhile_cons_of_pos hc]
      rfl
    rw [takeWhile_cons_of_neg hc, dropWhile_cons_of_neg hc, hr]
    -- a hexadecimal digit ends the number, too
    split_ifs with hx hten
    · rfl
    · exact absurd (hiff.mp ⟨hx, not_le.mp hten⟩) hc
    · rfl

/-- Every decimal number is read to its end, modulo the word size. -/
theorem simpleStrtoul_decimal (w : Nat) (cp : List UInt8) :
    simpleStrtoul w cp 10 = (decimal (cp.takeWhile isdigit) % 2 ^ w, cp.dropWhile isdigit) := by
  unfold simpleStrtoul
  rw [if_neg (show ¬(10 : Nat) = 0 by decide),
    if_neg fun h => absurd h.1 (show ¬(10 : Nat) = 16 by decide)]
  exact strtoulLoop_eq (zero_mod _).symm cp

lemma isdigit_numeral {n : Nat} : ∀ c ∈ numeral 10 0 n, isdigit c = true := by
  intro c hc
  obtain ⟨d, hd, rfl⟩ := mem_map.mp hc
  have hlt := numeralDigits_lt (by decide) d hd
  interval_cases d <;> decide

lemma decimal_numeral (n : Nat) : decimal (numeral 10 0 n) = n := by
  have hvalue : (numeral 10 0 n).map digitValue = numeralDigits 10 n := by
    refine (map_map ..).trans ((map_congr_left fun d hd => ?_).trans (map_id _))
    have hlt := numeralDigits_lt (by decide) d hd
    interval_cases d <;> decide
  rw [decimal, hvalue, readDigits_numeral]

end BoardStack.Vsprintf
