/-
Truncation: what `vsnprintf` writes into a buffer is the beginning of a text
that does not depend on the buffer.

Every writer of the printer emits a fixed text into whatever sink it gets
(`Emits`), and decoding never looks at the sink. So the turns of the loop
take the same course for all buffers (`convert_spec`, `vsnprintfLoop_spec`),
and the limit only decides which of the characters are stored.
-/
import BoardStack.Vsprintf.Basic
import Mathlib.Data.List.TakeWhile

namespace BoardStack.Vsprintf

open Base Function List

variable {w : Nat}

-- == writers as texts

/-- A writer puts out the same text wherever it writes. -/
def Emits (w : Nat) (f : Sink UInt8 → Sink UInt8) : Prop := ∃ text, ∀ o, f o = o.emit w text

/-- The same of a writer that also returns a value. -/
def EmitsTo {β : Type} (w : Nat) (f : Sink UInt8 → β × Sink UInt8) : Prop :=
  ∃ text b, ∀ o, f o = (b, o.emit w text)

lemma EmitsTo.ite {β : Type} {f : Sink UInt8 → β × Sink UInt8} (b : β)
    (p : Bool) (h : EmitsTo w f) :
    EmitsTo w fun o => if p then (b, o) else f o := by
  cases p with
  | true => exact ⟨[], b, fun o => rfl⟩
  | false =>
    obtain ⟨text, b', h⟩ := h
    exact ⟨text, b', fun o => h o⟩

lemma padLoop_emits (c : UInt8) (k : Int) (turns : Nat) (n : Int) :
    EmitsTo w (padLoop w c k turns n) := by
  induction turns generalizing n with
  | zero => exact ⟨[], n, fun o => rfl⟩
  | succ turns ih =>
    by_cases hk : k ≤ int (n - 1)
    · obtain ⟨text, b, h⟩ := ih (int (n - 1))
      refine ⟨c :: text, b, fun o => ?_⟩
      rw [padLoop, if_pos hk, h, Sink.emit_cons]
    · exact ⟨[], int (n - 1), fun o => if_neg hk⟩

lemma pad_emits (c : UInt8) (k n : Int) : EmitsTo w (pad w c k n) := padLoop_emits c k maxTurns n

lemma spaceLoop_emits (len : Int) (turns : Nat) (n : Int) :
    EmitsTo w (spaceLoop w len turns n) := by
  induction turns generalizing n with
  | zero => exact ⟨[], n, fun o => rfl⟩
  | succ turns ih =>
    by_cases hk : len < n
    · obtain ⟨text, b, h⟩ := ih (int (n - 1))
      refine ⟨' '.toUInt8 :: text, b, fun o => ?_⟩
      rw [spaceLoop, if_pos hk, h, Sink.emit_cons]
    · exact ⟨[], int (n - 1), fun o => if_neg hk⟩

lemma number_emits (num : Nat) (spec : PrintfSpec) : Emits w fun o => number w o num spec := by
  unfold number
  dsimp only
  generalize numberSign spec.flags num = sign
  generalize numberPrefix spec = pfx
  generalize numberTmp spec.base (locase spec.flags) sign.2 = tmp
  generalize (if spec.precision < tmp.length then (tmp.length : Int)
    else spec.precision) = precision
  generalize int (int (spec.fieldWidth - sign.1.length - pfx.length) - precision) = fieldWidth
  obtain ⟨t1, n1, h1⟩ := EmitsTo.ite (w := w) fieldWidth
    ((spec.flags.zeropad && !spec.flags.left) || spec.flags.left)
    (pad_emits ' '.toUInt8 0 fieldWidth)
  obtain ⟨t2, n2, h2⟩ := EmitsTo.ite (w := w) n1 spec.flags.left
    (pad_emits (if (spec.flags.zeropad && !spec.flags.left) = true
      then '0'.toUInt8 else ' '.toUInt8) 0 n1)
  obtain ⟨t3, n3, h3⟩ := pad_emits (w := w) '0'.toUInt8 tmp.length precision
  obtain ⟨t4, n4, h4⟩ := pad_emits (w := w) ' '.toUInt8 0 n2
  refine ⟨t1 ++ sign.1 ++ pfx ++ t2 ++ t3 ++ tmp.reverse ++ t4, fun o => ?_⟩
  simp only [h1, h2, h3, h4, Sink.emit_append]

lemma string_emits (s : Str) (spec : PrintfSpec) : Emits w fun o => string w o s spec := by
  unfold string
  dsimp only
  generalize (if s.addr < pageSize then lit "<NULL>" else s.chars) = chars
  generalize int (strnlen chars spec.precision) = len
  obtain ⟨t1, n1, h1⟩ := EmitsTo.ite (w := w) spec.fieldWidth
    spec.flags.left (spaceLoop_emits len maxTurns spec.fieldWidth)
  obtain ⟨t2, n2, h2⟩ := spaceLoop_emits (w := w) len maxTurns n1
  refine ⟨t1 ++ chars.take len.toNat ++ t2, fun o => ?_⟩
  simp only [h1, h2, Sink.emit_append]

lemma charConv_emits (c : Int) (spec : PrintfSpec) : Emits w fun o => charConv w o c spec := by
  unfold charConv
  obtain ⟨t1, n1, h1⟩ := EmitsTo.ite (w := w) spec.fieldWidth
    spec.flags.left (pad_emits ' '.toUInt8 1 spec.fieldWidth)
  obtain ⟨t2, n2, h2⟩ := pad_emits (w := w) ' '.toUInt8 1 n1
  refine ⟨t1 ++ UInt8.ofNat (unsigned 8 c) :: t2, fun o => ?_⟩
  simp only [h1, h2, Sink.emit_append, Sink.emit_cons]

lemma put_emits (c : UInt8) : Emits w fun o => o.put w c := ⟨[c], fun _ => rfl⟩

lemma symbolString_emits (env : Env) (value : Nat) (spec : PrintfSpec) :
    Emits env.word.bits fun o => symbolString env o value spec := by
  unfold symbolString
  cases env.sprintSymbol with
  | some sprintSymbol => exact string_emits _ _
  | none => exact number_emits _ _

lemma pointer_emits (env : Env) (fmt : List UInt8) (ptr : Nat) (spec : PrintfSpec) :
    Emits env.word.bits fun o => pointer env fmt o ptr spec := by
  unfold pointer
  dsimp only
  split_ifs
  all_goals first
    | exact string_emits _ _
    | exact symbolString_emits _ _ _
    | exact number_emits _ _

variable {text : List UInt8}

/-- While the cursor does not wrap, copying a literal at once is putting its
characters out one by one. -/
lemma copyLiteral_eq {o : Sink UInt8} (h : o.pos + text.length < 2 ^ w) :
    copyLiteral w o text = o.emit w text := by
  have hpos := Sink.emit_pos h
  have hmem : (copyLiteral w o text).mem = (o.emit w text).mem := by
    funext a
    unfold copyLiteral
    dsimp only
    split
    next hin =>
      obtain ⟨i, rfl⟩ := Nat.exists_eq_add_of_le hin.1
      rw [Nat.add_sub_cancel_left]
      cases hi : text[i]? with
      | some c => exact (Sink.emit_mem h hi hin.2).symm
      | none =>
        rw [List.getElem?_eq_none_iff] at hi
        exact (Sink.emit_mem_of_outside h (by omega)).symm
    next hout => exact (Sink.emit_mem_of_outside h (by omega)).symm
  calc copyLiteral w o text
      = ⟨(copyLiteral w o text).mem, (o.pos + text.length) % 2 ^ w, o.limit, o.log ++ text⟩ := rfl
    _ = ⟨(o.emit w text).mem, (o.emit w text).pos, (o.emit w text).limit, (o.emit w text).log⟩ := by
        rw [hmem, hpos, Nat.mod_eq_of_lt h, Sink.emit_limit, Sink.emit_log]

-- == the course of the loop

/-- `out'` is what putting out `text` and storing `stores` leaves after `k`
characters; of memory, the cursor and the stores this is known if the cursor
does not wrap. -/
structure Leaves (env : Env) (buf k : Nat) (out : Output)
    (text : List UInt8) (stores : List (Nat × Int)) (out' : Output) :
    Prop where
  log : out'.sink.log = out.sink.log ++ text
  eq : out.sink.pos = buf + k → buf + k + text.length < 2 ^ env.word.bits →
      out' = ⟨out.sink.emit env.word.bits text, out.stores ++ stores⟩

variable {env : Env}

lemma Leaves.trans {buf k : Nat} {out out1 out2 : Output}
    {t1 t2 : List UInt8} {s1 s2 : List (Nat × Int)} (h1 : Leaves env buf k out t1 s1 out1)
    (h2 : Leaves env buf (k + t1.length) out1 t2 s2 out2) :
    Leaves env buf k out (t1 ++ t2) (s1 ++ s2) out2 := by
  refine ⟨by rw [h2.log, h1.log, append_assoc], fun hpos hlt => ?_⟩
  rw [length_append] at hlt
  obtain rfl := h1.eq hpos (by omega)
  have hpos1 := Sink.emit_pos (w := env.word.bits) (o := out.sink) (t := t1) (by omega)
  obtain rfl := h2.eq (hpos1.trans (by omega)) (by omega)
  rw [Sink.emit_append, append_assoc]

lemma Leaves.of_emit (buf k : Nat) (out : Output) (text : List UInt8) :
    Leaves env buf k out text [] { out with sink := out.sink.emit env.word.bits text } :=
  ⟨Sink.emit_log _ _ _, fun _ _ => by rw [append_nil]⟩

lemma nrcharsValue_eq (env : Env) (q : Option UInt8) (buf k : Nat) :
    nrcharsValue env q (buf + k) buf = nrcharsValue env q k 0 := by
  unfold nrcharsValue
  rw [show ((buf + k : Nat) : Int) - (buf : Int)
    = ((k : Nat) : Int) - ((0 : Nat) : Int) by push_cast; omega]

/-- A turn that is undefined for every buffer, or that goes on at one place of
the format with one text. -/
def Course (env : Env) (k : Nat) (turn : Nat → Output → Option (Cursor × Output)) : Prop :=
  (∀ buf out, turn buf out = none) ∨ ∃ cur text stores, ∀ buf out, ∃ out',
      turn buf out = some (cur, out') ∧ Leaves env buf k out text stores out'

lemma Course.of_emits (k : Nat) (cur : Cursor)
    {f : Sink UInt8 → Sink UInt8} (h : Emits env.word.bits f) :
    Course env k fun _ out =>
      some (cur, { out with sink := f out.sink }) := by
  obtain ⟨text, h⟩ := h
  refine .inr ⟨cur, text, [], fun buf out => ⟨_, rfl, ?_⟩⟩
  rw [h]
  exact .of_emit buf k out text

lemma convert_spec (env : Env) (cur : Cursor) (k : Nat) :
    Course env k fun buf out => convert env buf cur out := by
  unfold convert
  dsimp only
  generalize formatDecode cur.fmt cur.spec = d
  split
  next =>
    -- only here the text may differ from what the cursor makes of it
    refine .inr ⟨_, cur.fmt.take (cur.fmt.length - d.2.length), [],
      fun buf out => ⟨_, rfl, rfl, fun hpos hlt => ?_⟩⟩
    rw [copyLiteral_eq (by omega), append_nil]
  next => exact .of_emits k _ ⟨[], fun _ => rfl⟩
  next => exact .of_emits k _ ⟨[], fun _ => rfl⟩
  next => exact .of_emits k _ (charConv_emits _ _)
  next => exact .of_emits k _ (string_emits _ _)
  next => exact .of_emits k _ (pointer_emits _ _ _ _)
  next => exact .of_emits k _ (put_emits _)
  next => exact .of_emits k _ (put_emits _)
  next p args _ _ =>
    refine .inr ⟨_, [], [(p, nrcharsValue env d.1.qualifier k 0)],
      fun buf out => ⟨_, rfl, (append_nil _).symm, fun hpos hlt => ?_⟩⟩
    rw [hpos, nrcharsValue_eq, Sink.emit_nil]
  next arg args _ _ _ _ _ _ _ _ _ _ =>
    cases integerArg env d.1.type arg with
    | some num => exact .of_emits k _ (number_emits _ _)
    | none => exact .inl fun _ _ => rfl
  next => exact .inl fun _ _ => rfl

lemma vsnprintfLoop_turn {buf : Nat} {cur : Cursor} {out : Output} (hne : cur.fmt ≠ []) :
    vsnprintfLoop env buf cur out = (convert env buf cur out).bind fun r =>
          vsnprintfLoop env buf r.1 r.2 := by
  rw [vsnprintfLoop, dif_neg hne]
  split
  next heq => rw [heq]; rfl
  next heq => rw [heq]; rfl

/-- The whole loop, from any place of the format. The induction is on what
the turns count down; a turn that is undefined ends it for every buffer. -/
lemma vsnprintfLoop_spec (env : Env) (cur : Cursor) (k : Nat) :
    (∀ buf out, vsnprintfLoop env buf cur out = none) ∨ ∃ text stores, ∀ buf out, ∃ out',
        vsnprintfLoop env buf cur out = some out' ∧ Leaves env buf k out text stores out' := by
  induction hm : cur.measure using Nat.strong_induction_on generalizing cur k with
  | _ m ih =>
    subst hm
    by_cases hnil : cur.fmt = []
    · refine .inr ⟨[], [], fun buf out => ⟨out, ?_, .of_emit buf k out []⟩⟩
      rw [vsnprintfLoop, dif_pos hnil]
    have hturn := convert_spec env cur k
    unfold Course at hturn
    dsimp only at hturn
    rcases hturn with hnone | ⟨cur', t1, s1, hsome⟩
    · exact .inl fun buf out => by rw [vsnprintfLoop_turn hnil, hnone]; rfl
    have hlt : cur'.measure < cur.measure := by
      obtain ⟨out', h, -⟩ := hsome 0 ⟨⟨fun _ => 0, 0, 0, []⟩, []⟩
      exact convert_measure hnil h
    rcases ih _ hlt cur' (k + t1.length) rfl with
      hnone | ⟨t2, s2, hrest⟩
    · refine .inl fun buf out => ?_
      obtain ⟨out1, h1, -⟩ := hsome buf out
      rw [vsnprintfLoop_turn hnil, h1]
      exact hnone buf out1
    refine .inr ⟨t1 ++ t2, s1 ++ s2, fun buf out => ?_⟩
    obtain ⟨out1, h1, hleaves1⟩ := hsome buf out
    obtain ⟨out2, h2, hleaves2⟩ := hrest buf out1
    refine ⟨out2, ?_, hleaves1.trans hleaves2⟩
    rw [vsnprintfLoop_turn hnil, h1]
    exact h2

-- == vsnprintf

lemma int_natCast {n : Nat} (h : n < 2147483648) : int n = n := by
  apply signed_eq (w := 31)
  · omega
  · omega

lemma int_distance (env : Env) {buf n : Nat} (hn : n < 2147483648) :
    int (signed env.word.bits (((buf + n : Nat) : Int) - (buf : Int))) = n := by
  rw [show ((buf + n : Nat) : Int) - (buf : Int) = (n : Int) by omega]
  have hword : signed env.word.bits (n : Int) = n := by
    cases env.word with
    | w32 => exact int_natCast hn
    | w64 =>
      apply signed_eq (w := 63)
      · omega
      · omega
  rw [hword, int_natCast hn]

/-- What one call leaves, of an output `text` that does not reach the top of
the address space. -/
structure Truncated (mem : Nat → UInt8) (buf size : Nat) (text : List UInt8)
    (stores : List (Nat × Int)) (r : Result) : Prop where
  ret : r.ret = text.length
  stores : r.stores = stores
  outside : ∀ a, a < buf ∨ buf + size ≤ a → r.mem a = mem a
  inside : ∀ i c, i < size - 1 → text[i]? = some c → r.mem (buf + i) = c
  nul : 0 < size → r.mem (buf + min (size - 1) text.length) = 0

lemma truncated_of_loop {mem : Nat → UInt8} {buf size : Nat} {fmt : Format} {args : List Arg}
    {stores : List (Nat × Int)} (hsize : size < 2147483648) (hend : buf + size < 2 ^ env.word.bits)
    (hn : buf + text.length < 2 ^ env.word.bits) (hlen : text.length < 2147483648)
    (hloop : vsnprintfLoop env buf ⟨fmt.chars, {}, args⟩ ⟨⟨mem, buf, buf + size, []⟩, []⟩
      = some ⟨(⟨mem, buf, buf + size, []⟩ : Sink UInt8).emit env.word.bits text, stores⟩) :
    ∃ r, vsnprintf env mem buf size fmt args = some r ∧ Truncated mem buf size text stores r := by
  have hpos := Sink.emit_pos (w := env.word.bits)
    (o := (⟨mem, buf, buf + size, []⟩ : Sink UInt8)) (t := text) hn
  have hstay := fun a => Sink.emit_mem_of_outside (w := env.word.bits)
    (o := (⟨mem, buf, buf + size, []⟩ : Sink UInt8)) (t := text)
    (a := a) hn
  have hmem := fun i c => Sink.emit_mem (w := env.word.bits)
    (o := (⟨mem, buf, buf + size, []⟩ : Sink UInt8)) (t := text) (i := i)
    (c := c) hn
  dsimp only at hpos hstay hmem
  generalize (⟨mem, buf, buf + size, []⟩ : Sink UInt8).emit
    env.word.bits text = sink at hloop hpos hstay hmem
  -- the NUL goes to the end of the text or of the buffer
  have hlast : 0 < size → (if sink.pos < buf + size then sink.pos else buf + size - 1)
        = buf + min (size - 1) text.length := by
    intro hsize
    rw [hpos]
    split <;> omega
  refine ⟨⟨text.length, if 0 < size then update sink.mem
    (buf + min (size - 1) text.length) 0 else sink.mem, stores⟩, ?_, rfl, rfl, ?_, ?_, ?_⟩
  · unfold vsnprintf
    dsimp only
    rw [int_natCast hsize, if_neg (by omega), Nat.mod_eq_of_lt hend,
      if_neg (by omega : ¬ buf + size < buf), if_neg (by omega : ¬ buf + size < buf), hloop]
    dsimp only
    rw [hpos, int_distance env hlen, ← hpos]
    by_cases hsize : 0 < size
    · rw [if_pos hsize, if_pos hsize, hlast hsize]
    · rw [if_neg hsize, if_neg hsize]
  · intro a ha
    dsimp only
    split
    next =>
      rw [update_of_ne (by omega)]
      exact hstay a (by omega)
    next => exact hstay a (by omega)
  · intro i c hi hc
    have hil : i < text.length := (List.getElem?_eq_some_iff.mp hc).1
    dsimp only
    rw [if_pos (by omega), update_of_ne (by omega)]
    exact hmem i c hc (by omega)
  · intro hpos
    dsimp only
    rw [if_pos hpos, update_self]

/-- Truncation. The output before truncation does not depend on the
buffer: a call that is undefined for one is undefined for all. Otherwise the
call returns the length of that output, leaves its beginning in the buffer,
closed by a NUL, and changes nothing outside. -/
theorem vsnprintf_truncates (env : Env) (fmt : Format) (args : List Arg) :
    (untruncated env fmt args = none → ∀ mem buf size, size < 2147483648 →
      vsnprintf env mem buf size fmt args = none) ∧
    ∀ text stores, untruncated env fmt args = some (text, stores) →
      text.length < 2147483648 → ∀ mem buf size, size < 2147483648 →
      buf + size < 2 ^ env.word.bits →
      buf + text.length < 2 ^ env.word.bits →
      ∃ r, vsnprintf env mem buf size fmt args = some r ∧ Truncated mem buf size text stores r := by
  unfold untruncated
  rcases vsnprintfLoop_spec env ⟨fmt.chars, {}, args⟩ 0 with
    hnone | ⟨t, s, hsome⟩
  · constructor
    · intro _ mem buf size hsize
      unfold vsnprintf
      dsimp only
      rw [int_natCast hsize, if_neg (by omega), hnone]
    · intro text stores h
      simp [hnone] at h
  obtain ⟨out0, h0, hleaves0⟩ := hsome 0 ⟨⟨fun _ => 0, 0, 0, []⟩, []⟩
  rw [h0, Option.map_some]
  constructor
  · intro h
    cases h
  intro text stores h hlen mem buf size hsize hend hn
  obtain ⟨hlog, hstores⟩ := Prod.mk.inj (Option.some.inj h)
  obtain rfl : t = text := by rw [← hlog, hleaves0.log]; rfl
  obtain rfl := hleaves0.eq rfl (by omega)
  obtain rfl : s = stores := hstores
  obtain ⟨out, hloop, hleaves⟩ := hsome buf ⟨⟨mem, buf, buf + size, []⟩, []⟩
  obtain rfl := hleaves.eq rfl (by omega)
  exact truncated_of_loop hsize hend hn hlen hloop

lemma vsnprintfLoop_of_convert {env : Env} {buf : Nat} {cur cur' : Cursor} {out out' : Output}
    (hne : cur.fmt ≠ []) (h : convert env buf cur out = some (cur', out')) :
    vsnprintfLoop env buf cur out = vsnprintfLoop env buf cur' out' := by
  rw [vsnprintfLoop_turn hne, h, Option.bind_some]

lemma vsnprintfLoop_end {env : Env} {buf : Nat} {cur : Cursor} {out : Output}
    (h : cur.fmt = []) : vsnprintfLoop env buf cur out = some out := by
  rw [vsnprintfLoop, dif_pos h]

lemma vsnprintfLoop_literal (env : Env) (buf : Nat) {fmt : List UInt8}
    (args : List Arg) (out : Output) (hne : fmt ≠ []) (hlit : '%'.toUInt8 ∉ fmt) :
    vsnprintfLoop env buf ⟨fmt, {}, args⟩ out = some { out with
          sink := copyLiteral env.word.bits out.sink fmt } := by
  have hchar : charAt fmt 0 ≠ '%'.toUInt8 := by
    obtain ⟨c, cs, rfl⟩ := exists_cons_of_ne_nil hne
    intro h
    exact hlit (mem_cons.mpr (.inl h.symm))
  have hdrop : fmt.dropWhile (· ≠ '%'.toUInt8) = [] := by
    rw [dropWhile_eq_nil_iff]
    intro c hc
    exact decide_eq_true fun h => hlit (h ▸ hc)
  have hdecode : formatDecode fmt {} = ({}, []) := by
    unfold formatDecode
    rw [if_neg hchar, hdrop]
  have hconvert : convert env buf ⟨fmt, {}, args⟩ out = some (⟨[], {}, args⟩, { out with
          sink := copyLiteral env.word.bits out.sink fmt }) := by
    unfold convert
    rw [hdecode]
    dsimp only
    rw [length_nil, Nat.sub_zero, take_length]
  rw [vsnprintfLoop_of_convert hne hconvert, vsnprintfLoop_end rfl]

/-- A machine of 32 bits without symbols. -/
def board : Env := ⟨.w32, none, id, fun _ => 0, fun _ => ⟨0, 0, false, false⟩, 4⟩

def padded : Format := ⟨lit "%5d|%-3x", by decide, by decide⟩

/-- Two numbers, padded on the left and on the right, of which the padding of the first
fits. -/
theorem vsnprintf_truncates_padded :
    untruncated board padded [.int 42, .int 255] = some (lit "   42|ff ", []) ∧
      ∃ r, vsnprintf board (fun _ => 0xff) 0x1000 4 padded [.int 42, .int 255] = some r ∧
        Truncated (fun _ => 0xff) 0x1000 4 (lit "   42|ff ") [] r := by
  have h : untruncated board padded [.int 42, .int 255] = some (lit "   42|ff ", []) := by
    unfold untruncated
    rw [vsnprintfLoop_of_convert (by decide) rfl, vsnprintfLoop_of_convert (by decide) rfl,
      vsnprintfLoop_of_convert (by decide) rfl, vsnprintfLoop_end rfl]
    rfl
  exact ⟨h, (vsnprintf_truncates board padded _).2 _ _ h (by decide) _ _
    _ (by decide) (by decide) (by decide)⟩

def nineChars : Format := ⟨lit "abcdefghi", by decide, by decide⟩

/-- Near the top of the address space the cursor wraps to below the limit, and
the NUL goes to address 1 instead of into the buffer. -/
theorem nul_outside_buffer :
    untruncated board nineChars [] = some (lit "abcdefghi", []) ∧
      ∃ r, vsnprintf board (fun _ => 0xff) 0xfffffff8 4 nineChars [] = some r
        ∧ r.mem 1 = 0 ∧ ∀ i < 4, r.mem (0xfffffff8 + i) ≠ 0 := by
  constructor
  · unfold untruncated
    rw [vsnprintfLoop_literal _ _ _ _ (by decide) (by decide)]
    rfl
  · unfold vsnprintf
    dsimp only
    rw [if_neg (by decide), vsnprintfLoop_literal _ _ _ _ (by decide) (by decide)]
    exact ⟨_, rfl, by decide, by decide⟩

end BoardStack.Vsprintf
