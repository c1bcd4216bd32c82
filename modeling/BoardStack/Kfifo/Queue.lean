/-
The byte queue of kernel/kfifo.c between one producer and one consumer that
take no lock.

`put` and `get` hold where each of the two threads is in `__kfifo_put` and
`__kfifo_get`: one constructor for each read of an index, for the bytes of each
`memcpy` and for the update of the own index, so that a schedule may change the
thread between any two of them. The indices are free-running 32-bit words;
`accepted` and `returned` collect what the calls that have updated their index
put and got, and their lengths are the counts the indices are the low words of.

Left out: the allocation of a queue, the memory barriers (memory is
sequentially consistent here) and the variants under the lock.
-/
import BoardStack.Base.Bits
import Mathlib.Tactic.Ring

namespace BoardStack.Kfifo

open BoardStack.Base List BitVec Nat Option

abbrev Word := BitVec 32

/-- `min` of two `unsigned int`s. -/
def umin (x y : Word) : Word := if x < y then x else y

@[simp] lemma toNat_umin (x y : Word) : (umin x y).toNat = min x.toNat y.toNat := by
  unfold umin
  split_ifs with h <;> rw [lt_def] at h <;> omega

-- == the two threads

/-- Where the producer is in `__kfifo_put`, with its locals: it is about to
read `in` and then `out` for `len`, to read `in` for `l` and for the place of
the first copy, to copy the next byte of the first or second `memcpy`, to read
`in` for the update, to store it. -/
inductive Put where
  | idle
  | lenIn (buffer : List UInt8)
  | lenOut (buffer : List UInt8) (i : Word)
  | split (buffer : List UInt8) (len : Word)
  | place (buffer : List UInt8) (len l : Word)
  | first (buffer : List UInt8) (len l dst : Word) (k : Nat)
  | second (buffer : List UInt8) (len l : Word) (k : Nat)
  | update (buffer : List UInt8) (len : Word)
  | store (buffer : List UInt8) (len i : Word)

/-- Where the consumer is in `__kfifo_get`; `buffer` is what it has copied. -/
inductive Get where
  | idle
  | lenIn (len : Word)
  | lenOut (len i : Word)
  | split (len : Word)
  | place (len l : Word)
  | first (len l src : Word) (k : Nat) (buffer : List UInt8)
  | second (len l : Word) (k : Nat) (buffer : List UInt8)
  | update (len : Word) (buffer : List UInt8)
  | store (len : Word) (buffer : List UInt8) (o : Word)

structure State where
  buffer : Nat → UInt8
  size : Word
  inIdx : Word
  outIdx : Word
  put : Put
  get : Get
  accepted : List UInt8
  returned : List UInt8

/-- A queue as `kfifo_init` leaves it. -/
def init (buffer : Nat → UInt8) (size : Word) : State := ⟨buffer, size, 0, 0, .idle, .idle, [], []⟩

/-- The byte a `memcpy` of the producer writes next: its place in the queue's
buffer, the byte, and where the producer is then. -/
def Put.copy : Put → Option (Nat × UInt8 × Put)
  | .first buffer len l dst k =>
    if k < l.toNat then
      some (dst.toNat + k, buffer.getD k 0, .first buffer len l dst (k + 1))
    else none
  | .second buffer len l k =>
    if k < (len - l).toNat then
      some (k, buffer.getD (l.toNat + k) 0, .second buffer len l (k + 1))
    else none
  | _ => none

/-- The steps of the producer that leave the queue's buffer alone. -/
def putControl (s : State) : Option State :=
  match s.put with
  | .idle => none
  | .lenIn buffer => some { s with put := .lenOut buffer s.inIdx }
  | .lenOut buffer i =>
    let len := BitVec.ofNat 32 buffer.length
    some { s with put := .split buffer (umin len (s.size - i + s.outIdx)) }
  | .split buffer len =>
    let l := umin len (s.size - (s.inIdx &&& (s.size - 1)))
    some { s with put := .place buffer len l }
  | .place buffer len l =>
    some { s with put := .first buffer len l (s.inIdx &&& (s.size - 1)) 0 }
  | .first buffer len l _ _ => some { s with put := .second buffer len l 0 }
  | .second buffer len _ _ => some { s with put := .update buffer len }
  | .update buffer len => some { s with put := .store buffer len s.inIdx }
  | .store buffer len i =>
    some { s with inIdx := i + len, put := .idle, accepted := s.accepted ++ buffer.take len.toNat }

/-- The next step of `__kfifo_put`. -/
def putStep (s : State) : Option State :=
  match s.put.copy with
  | some (slot, byte, next) =>
    some { s with buffer := fun a => if a = slot then byte else s.buffer a, put := next }
  | none => putControl s

/-- The next step of `__kfifo_get`. -/
def getStep (s : State) : Option State :=
  match s.get with
  | .idle => none
  | .lenIn len => some { s with get := .lenOut len s.inIdx }
  | .lenOut len i => some { s with get := .split (umin len (i - s.outIdx)) }
  | .split len =>
    let l := umin len (s.size - (s.outIdx &&& (s.size - 1)))
    some { s with get := .place len l }
  | .place len l =>
    some { s with get := .first len l (s.outIdx &&& (s.size - 1)) 0 [] }
  | .first len l src k buffer =>
    if k < l.toNat then
      let buffer := buffer ++ [s.buffer (src.toNat + k)]
      some { s with get := .first len l src (k + 1) buffer }
    else some { s with get := .second len l 0 buffer }
  | .second len l k buffer =>
    if k < (len - l).toNat then
      some { s with get := .second len l (k + 1) (buffer ++ [s.buffer k]) }
    else some { s with get := .update len buffer }
  | .update len buffer => some { s with get := .store len buffer s.outIdx }
  | .store len buffer o =>
    some { s with outIdx := o + len, get := .idle, returned := s.returned ++ buffer }

/-- What a schedule may do next: call a function in a thread that is in none,
or let a thread take its next step. -/
inductive Act where
  | callPut (buffer : List UInt8)
  | put
  | callGet (len : Word)
  | get

/-- A call of `__kfifo_put` has an `unsigned int` of bytes to put. -/
def step (s : State) : Act → Option State
  | .callPut buffer =>
    match s.put with
    | .idle =>
      if buffer.length < 2 ^ 32 then some { s with put := .lenIn buffer }
      else none
    | _ => none
  | .put => putStep s
  | .callGet len =>
    match s.get with
    | .idle => some { s with get := .lenIn len }
    | _ => none
  | .get => getStep s

def runFrom : State → List Act → Option State
  | s, [] => some s
  | s, a :: as => (step s a).bind fun s' => runFrom s' as

-- == positions and indices

section

variable {size : Word} {j n m : Nat}

lemma slot_ne {a b S : Nat} (hlt : a < b) (hb : b < a + S) : b % S ≠ a % S := by
  intro heq
  have hdvd : S ∣ b - a := dvd_of_mod_eq_zero (sub_mod_eq_zero_of_mod_eq heq)
  have := le_of_dvd (by omega) hdvd
  omega

lemma slot_first {S k : Nat} (hk : k < S - n % S) : n % S + k = (n + k) % S := by
  rw [add_mod, mod_eq_of_lt (show k < S by omega)]
  exact (mod_eq_of_lt (by omega)).symm

lemma slot_second {S k : Nat} (hpos : 0 < S) (hk : S - n % S + k < S) :
    k = (n + (S - n % S + k)) % S := by
  have hlt : n % S < S := mod_lt n hpos
  have hdiv := div_add_mod n S
  have : n + (S - n % S + k) = k + S * (n / S + 1) := by
    rw [Nat.mul_add]
    omega
  rw [this, add_mul_mod_self_left, mod_eq_of_lt (by omega)]

variable (hsize : size.toNat = 2 ^ j)

include hsize

lemma size_pos : 0 < size.toNat := hsize ▸ Nat.two_pow_pos j

lemma toNat_room (hle : m ≤ n) (hfit : n ≤ m + size.toNat) :
    (size - BitVec.ofNat 32 n + BitVec.ofNat 32 m).toNat = m + size.toNat - n := by
  rw [toNat_add, toNat_sub, toNat_ofNat, toNat_ofNat]
  omega

lemma toNat_unread (hle : m ≤ n) (hfit : n ≤ m + size.toNat) :
    (BitVec.ofNat 32 n - BitVec.ofNat 32 m).toNat = n - m := by
  rw [toNat_sub, toNat_ofNat, toNat_ofNat]
  omega

lemma toNat_slot (n : Nat) : (BitVec.ofNat 32 n &&& (size - 1)).toNat = n % size.toNat := by
  have hpos := size_pos hsize
  have hmask : (size - 1).toNat = 2 ^ j - 1 := by
    rw [toNat_sub_of_le (by rw [le_def]; exact hpos), hsize]
    rfl
  have hdvd : 2 ^ j ∣ 2 ^ 32 := by
    refine pow_dvd_pow 2 ?_
    by_contra h
    have : 2 ^ 32 < 2 ^ j := Nat.pow_lt_pow_right (by decide) (by omega)
    omega
  rw [toNat_and, hmask, and_two_pow_sub_one_eq_mod, toNat_ofNat, mod_mod_of_dvd _ hdvd, hsize]

lemma toNat_toEnd (n : Nat) :
    (size - (BitVec.ofNat 32 n &&& (size - 1))).toNat = size.toNat - n % size.toNat := by
  have hlt := mod_lt n (size_pos hsize)
  rw [toNat_sub_of_le, toNat_slot hsize]
  rw [le_def, toNat_slot hsize]
  omega

end

-- == the invariant

section

variable (S n m : Nat)

/-- A put of `len` bytes has room. -/
def Room (buffer : List UInt8) (len : Word) : Prop :=
  len.toNat ≤ buffer.length ∧ n + len.toNat ≤ m + S

/-- The first `c` bytes of a put stand in the slots after the unread ones. -/
def Copied (queue : Nat → UInt8) (buffer : List UInt8) (c : Nat) : Prop :=
  ∀ p, p < c → queue ((n + p) % S) = buffer.getD p 0

/-- What the producer knows when `n` bytes were accepted and `m` returned: of
`out` only that it has not gone back since it was read. -/
def PutOk (queue : Nat → UInt8) : Put → Prop
  | .idle => True
  | .lenIn buffer => buffer.length < 2 ^ 32
  | .lenOut buffer i => buffer.length < 2 ^ 32 ∧ i = BitVec.ofNat 32 n
  | .split buffer len => Room S n m buffer len
  | .place buffer len l =>
    Room S n m buffer len ∧ l.toNat = min len.toNat (S - n % S)
  | .first buffer len l dst k =>
    Room S n m buffer len ∧ l.toNat = min len.toNat (S - n % S) ∧
    dst.toNat = n % S ∧ k ≤ l.toNat ∧ Copied S n queue buffer k
  | .second buffer len l k =>
    Room S n m buffer len ∧ l.toNat = min len.toNat (S - n % S) ∧
    l.toNat + k ≤ len.toNat ∧ Copied S n queue buffer (l.toNat + k)
  | .update buffer len =>
    Room S n m buffer len ∧ Copied S n queue buffer len.toNat
  | .store buffer len i =>
    Room S n m buffer len ∧ Copied S n queue buffer len.toNat ∧
    i = BitVec.ofNat 32 n

/-- What the consumer knows: `in` has not gone back since it was read. -/
def GetOk (accepted : List UInt8) : Get → Prop
  | .idle => True
  | .lenIn _ => True
  | .lenOut _ i => ∃ n, i = BitVec.ofNat 32 n ∧ m ≤ n ∧ n ≤ accepted.length
  | .split len => m + len.toNat ≤ accepted.length
  | .place len l =>
    m + len.toNat ≤ accepted.length ∧ l.toNat = min len.toNat (S - m % S)
  | .first len l src k buffer =>
    m + len.toNat ≤ accepted.length ∧ l.toNat = min len.toNat (S - m % S) ∧
    src.toNat = m % S ∧ k ≤ l.toNat ∧ buffer = (accepted.drop m).take k
  | .second len l k buffer =>
    m + len.toNat ≤ accepted.length ∧ l.toNat = min len.toNat (S - m % S) ∧
    l.toNat + k ≤ len.toNat ∧ buffer = (accepted.drop m).take (l.toNat + k)
  | .update len buffer =>
    m + len.toNat ≤ accepted.length ∧
    buffer = (accepted.drop m).take len.toNat
  | .store len buffer o =>
    m + len.toNat ≤ accepted.length ∧
    buffer = (accepted.drop m).take len.toNat ∧ o = BitVec.ofNat 32 m

end

/-- Position `q` holds a byte that was accepted and not returned. -/
def State.Unread (s : State) (q : Nat) : Prop := s.returned.length ≤ q ∧ q < s.accepted.length

structure Inv (size : Word) (s : State) : Prop where
  size : s.size = size
  pow : ∃ j, s.size.toNat = 2 ^ j
  inIdx : s.inIdx = BitVec.ofNat 32 s.accepted.length
  outIdx : s.outIdx = BitVec.ofNat 32 s.returned.length
  le : s.returned.length ≤ s.accepted.length
  fits : s.accepted.length ≤ s.returned.length + s.size.toNat
  returned : s.returned = s.accepted.take s.returned.length
  held : ∀ q, s.Unread q → s.accepted[q]? = some (s.buffer (q % s.size.toNat))
  put : PutOk s.size.toNat s.accepted.length s.returned.length s.buffer s.put
  get : GetOk s.size.toNat s.returned.length s.accepted s.get

variable {S n m m' : Nat} {queue : Nat → UInt8} {s s' : State}
  {size : Word} {accepted more : List UInt8} {slot : Nat} {byte : UInt8} {next p : Put}
  {g : Get}

lemma PutOk.mono (h : PutOk S n m queue p) (hle : m ≤ m') : PutOk S n m' queue p := by
  have room : ∀ {buffer len}, Room S n m buffer len → Room S n m' buffer len := by
    intro buffer len hroom
    exact ⟨hroom.1, by have := hroom.2; omega⟩
  cases p with
  | idle => trivial
  | lenIn buffer | lenOut buffer i => exact h
  | split buffer len => exact room h
  | place buffer len l | first buffer len l dst k | second buffer len l k | update buffer len
  | store buffer len i => exact ⟨room h.1, h.2⟩

variable {c : Nat}

lemma take_drop_append (hc : m + c ≤ accepted.length) :
    ((accepted ++ more).drop m).take c = (accepted.drop m).take c := by
  rw [drop_append_of_le_length (by omega), take_append_of_le_length]
  rw [length_drop]
  omega

lemma GetOk.append (h : GetOk S m accepted g) : GetOk S m (accepted ++ more) g := by
  have hlen : accepted.length ≤ (accepted ++ more).length := by
    rw [length_append]
    omega
  cases g with
  | idle | lenIn len => trivial
  | lenOut len i =>
    obtain ⟨n, hi, hm, hn⟩ := h
    exact ⟨n, hi, hm, by omega⟩
  | split len => exact le_trans h hlen
  | place len l => exact ⟨le_trans h.1 hlen, h.2⟩
  | first len l src k buffer =>
    obtain ⟨hroom, hl, hsrc, hk, hbuf⟩ := h
    refine ⟨by omega, hl, hsrc, hk, ?_⟩
    rw [hbuf, take_drop_append (by omega)]
  | second len l k buffer =>
    obtain ⟨hroom, hl, hk, hbuf⟩ := h
    refine ⟨by omega, hl, hk, ?_⟩
    rw [hbuf, take_drop_append (by omega)]
  | update len buffer =>
    obtain ⟨hroom, hbuf⟩ := h
    exact ⟨by omega, by rw [hbuf, take_drop_append hroom]⟩
  | store len buffer o =>
    obtain ⟨hroom, hbuf, ho⟩ := h
    exact ⟨by omega, by rw [hbuf, take_drop_append hroom], ho⟩

-- == the producer

variable {buffer : List UInt8}

lemma Copied.succ (h : Copied S n queue buffer c) (hc : c < S) :
    Copied S n (fun a => if a = (n + c) % S then buffer.getD c 0 else queue a) buffer (c + 1) := by
  intro p hp
  dsimp only
  rcases Nat.lt_or_ge p c with hlt | hge
  · rw [if_neg (Ne.symm (slot_ne (by omega) (by omega)))]
    exact h p hlt
  · have : p = c := by omega
    rw [this, if_pos rfl]

lemma copy_spec (hpos : 0 < S) (hfit : m ≤ n) (h : PutOk S n m queue p)
    (hcopy : p.copy = some (slot, byte, next)) :
    (∃ c, slot = (n + c) % S ∧ n + c < m + S) ∧
    PutOk S n m (fun a => if a = slot then byte else queue a) next := by
  cases p with
  | first buffer len l dst k =>
    obtain ⟨hroom, hl, hdst, hk, hcop⟩ := h
    have hfits := hroom.2
    simp only [Put.copy, ite_none_right_eq_some, Option.some.injEq, Prod.mk.injEq] at hcopy
    obtain ⟨hlt, hslot, rfl, rfl⟩ := hcopy
    have hat : slot = (n + k) % S := by rw [← hslot, hdst, slot_first (by omega)]
    rw [hat]
    exact ⟨⟨k, rfl, by omega⟩, hroom, hl, hdst, hlt, hcop.succ (by omega)⟩
  | second buffer len l k =>
    obtain ⟨hroom, hl, hk, hcop⟩ := h
    have hfits := hroom.2
    simp only [Put.copy, ite_none_right_eq_some, Option.some.injEq, Prod.mk.injEq] at hcopy
    obtain ⟨hlt, hslot, rfl, rfl⟩ := hcopy
    have hsub : (len - l).toNat = len.toNat - l.toNat := toNat_sub_of_le (by rw [le_def]; omega)
    have hend : l.toNat = S - n % S := by omega
    have hat : slot = (n + (l.toNat + k)) % S := by
      rw [← hslot, hend]
      exact slot_second hpos (by omega)
    rw [hat]
    exact ⟨⟨_, rfl, by omega⟩, hroom, hl, by omega, hcop.succ (by omega)⟩
  | _ => exact absurd hcopy (by simp [Put.copy])

lemma Inv.at {p : Put} (h : Inv size s) (hp : PutOk s.size.toNat s.accepted.length
    s.returned.length s.buffer p) : Inv size { s with put := p } :=
  ⟨h.size, h.pow, h.inIdx, h.outIdx, h.le, h.fits, h.returned, h.held, hp, h.get⟩

/-- The update of `in`: the copied bytes are now unread ones. -/
lemma Inv.accept {len i : Word} (h : Inv size s) (hput : s.put = .store buffer len i) :
    Inv size { s with inIdx := i + len, put := .idle,
                      accepted := s.accepted ++ buffer.take len.toNat } := by
  have hok := h.put
  rw [hput] at hok
  obtain ⟨⟨hlen, hfit⟩, hcop, hi⟩ := hok
  have htotal : (s.accepted ++ buffer.take len.toNat).length = s.accepted.length + len.toNat := by
    rw [length_append, length_take]
    omega
  refine ⟨h.size, h.pow, ?_, h.outIdx, ?_, ?_, ?_, ?_, trivial, h.get.append⟩
  · rw [htotal, ofNat_add, ofNat_toNat, setWidth_eq, hi]
  · dsimp only
    have := h.le
    omega
  · dsimp only
    omega
  · rw [take_append_of_le_length h.le]
    exact h.returned
  · rintro q ⟨hge, hlt⟩
    rcases Nat.lt_or_ge q s.accepted.length with hold | hnew
    · rw [List.getElem?_append_left hold]
      exact h.held q ⟨hge, hold⟩
    rw [htotal] at hlt
    have hbyte := hcop (q - s.accepted.length) (by omega)
    rw [show s.accepted.length + (q - s.accepted.length) = q by omega] at hbyte
    rw [List.getElem?_append_right hnew,
      List.getElem?_take_of_lt (by omega), hbyte, List.getD_eq_getElem?_getD]
    rw [List.getElem?_eq_getElem (by omega)]
    rfl

lemma Inv.putStep (h : Inv size s) (hstep : putStep s = some s') : Inv size s' := by
  obtain ⟨j, hsize⟩ := h.pow
  have hpos := size_pos hsize
  unfold Kfifo.putStep at hstep
  split at hstep
  · rename_i slot byte next hcopy
    cases hstep
    obtain ⟨⟨c, hslot, hlt⟩, hok⟩ := copy_spec hpos h.le h.put hcopy
    refine ⟨h.size, h.pow, h.inIdx, h.outIdx, h.le, h.fits, h.returned, ?_, hok, h.get⟩
    intro q hq
    obtain ⟨hge, hlt'⟩ := hq
    dsimp only at hge hlt' ⊢
    have hne : q % s.size.toNat ≠ slot := by
      rw [hslot]
      exact Ne.symm (slot_ne (by omega) (by omega))
    rw [if_neg hne]
    exact h.held q ⟨hge, hlt'⟩
  · rename_i hcopy
    have hok := h.put
    unfold putControl at hstep
    split at hstep
    all_goals
      rename_i hput
      rw [hput] at hok hcopy
    · exact absurd hstep (by simp)
    · -- the first read of `in`
      cases hstep
      exact h.at ⟨hok, h.inIdx⟩
    · -- `out` is read: the room cannot shrink from here on
      rename_i buffer i
      cases hstep
      obtain ⟨hlen, hi⟩ := hok
      have hroom := toNat_room hsize h.le h.fits
      have := h.fits
      refine h.at ⟨?_, ?_⟩
      · rw [toNat_umin, toNat_ofNat, mod_eq_of_lt hlen]
        exact Nat.min_le_left _ _
      · rw [toNat_umin, hi, h.outIdx, hroom]
        omega
    · cases hstep
      refine h.at ⟨hok, ?_⟩
      rw [toNat_umin, h.inIdx, toNat_toEnd hsize]
    · cases hstep
      refine h.at ⟨hok.1, hok.2, ?_, Nat.zero_le _, ?_⟩
      · rw [h.inIdx, toNat_slot hsize]
      · intro p hp
        omega
    · -- the first `memcpy` is done
      cases hstep
      obtain ⟨hroom, hl, hdst, hk, hcop⟩ := hok
      rw [Put.copy, ite_eq_right_iff] at hcopy
      have hend : ¬ _ < _ := fun hlt => some_ne_none _ (hcopy hlt)
      refine h.at ⟨hroom, hl, by omega, ?_⟩
      intro p hp
      exact hcop p (by omega)
    · -- the second one is
      cases hstep
      obtain ⟨hroom, hl, hk, hcop⟩ := hok
      rw [Put.copy, ite_eq_right_iff] at hcopy
      have hend : ¬ _ < _ := fun hlt => some_ne_none _ (hcopy hlt)
      rw [toNat_sub_of_le (by rw [le_def]; omega)] at hend
      refine h.at ⟨hroom, ?_⟩
      intro p hp
      exact hcop p (by omega)
    · cases hstep
      exact h.at ⟨hok.1, hok.2, h.inIdx⟩
    · cases hstep
      exact h.accept hput

-- == the consumer

lemma Inv.take_succ (h : Inv size s) (hc : s.returned.length + c < s.accepted.length) :
    (s.accepted.drop s.returned.length).take c
        ++ [s.buffer ((s.returned.length + c) % s.size.toNat)]
      = (s.accepted.drop s.returned.length).take (c + 1) := by
  have hat := h.held (s.returned.length + c) ⟨by omega, hc⟩
  rw [take_add_one, List.getElem?_drop, hat]
  rfl

lemma Inv.look {g : Get} (h : Inv size s)
    (hg : GetOk s.size.toNat s.returned.length s.accepted g) :
    Inv size { s with get := g } :=
  ⟨h.size, h.pow, h.inIdx, h.outIdx, h.le, h.fits, h.returned, h.held, h.put, hg⟩

/-- The update of `out`: the copied bytes are returned. -/
lemma Inv.deliver {len o : Word} (h : Inv size s) (hget : s.get = .store len buffer o) :
    Inv size { s with outIdx := o + len, get := .idle, returned := s.returned ++ buffer } := by
  have hok := h.get
  rw [hget] at hok
  obtain ⟨hlen, hbuf, ho⟩ := hok
  have htotal : (s.returned ++ buffer).length = s.returned.length + len.toNat := by
    rw [length_append, hbuf, length_take, length_drop]
    omega
  have := h.fits
  refine ⟨h.size, h.pow, h.inIdx, ?_, ?_, ?_, ?_, ?_, h.put.mono ?_, trivial⟩
  · rw [htotal, ofNat_add, ofNat_toNat, setWidth_eq, ho]
  · dsimp only
    omega
  · dsimp only
    omega
  · rw [htotal, take_add, ← h.returned, ← hbuf]
  · rintro q ⟨hge, hlt⟩
    dsimp only at hge hlt ⊢
    exact h.held q ⟨by omega, hlt⟩
  · dsimp only
    omega

lemma Inv.getStep (h : Inv size s) (hstep : getStep s = some s') : Inv size s' := by
  obtain ⟨j, hsize⟩ := h.pow
  have hpos := size_pos hsize
  have hok := h.get
  unfold Kfifo.getStep at hstep
  split at hstep
  all_goals
    rename_i hget
    rw [hget] at hok
  · exact absurd hstep (by simp)
  · cases hstep
    exact h.look ⟨_, h.inIdx, h.le, le_rfl⟩
  · -- `in` may have moved since it was read, but only on
    cases hstep
    obtain ⟨n, hi, hm, hn⟩ := hok
    have hunread := toNat_unread hsize hm (le_trans hn h.fits)
    refine h.look ?_
    rw [GetOk, toNat_umin, hi, h.outIdx, hunread]
    omega
  · cases hstep
    refine h.look ⟨hok, ?_⟩
    rw [toNat_umin, h.outIdx, toNat_toEnd hsize]
  · cases hstep
    refine h.look ⟨hok.1, hok.2, ?_, Nat.zero_le _, rfl⟩
    rw [h.outIdx, toNat_slot hsize]
  · obtain ⟨hroom, hl, hsrc, hk, hbuf⟩ := hok
    split at hstep
    · rename_i hlt
      cases hstep
      refine h.look ⟨hroom, hl, hsrc, hlt, ?_⟩
      rw [hbuf, hsrc, slot_first (by omega)]
      exact h.take_succ (by omega)
    · cases hstep
      refine h.look ⟨hroom, hl, by omega, ?_⟩
      rw [hbuf]
      congr 1
      omega
  · rename_i len l k buffer
    obtain ⟨hroom, hl, hk, hbuf⟩ := hok
    have hsub : (len - l).toNat = len.toNat - l.toNat := toNat_sub_of_le (by rw [le_def]; omega)
    have := h.fits
    split at hstep
    · rename_i hlt
      cases hstep
      have hend : l.toNat = s.size.toNat - s.returned.length % s.size.toNat := by omega
      have hat : k = (s.returned.length + (l.toNat + k)) % s.size.toNat := by
        rw [hend]
        exact slot_second hpos (by omega)
      refine h.look ⟨hroom, hl, by omega, ?_⟩
      rw [hbuf]
      nth_rewrite 2 [hat]
      exact h.take_succ (by omega)
    · cases hstep
      refine h.look ⟨hroom, ?_⟩
      rw [hbuf]
      congr 1
      omega
  · cases hstep
    exact h.look ⟨hok.1, hok.2, h.outIdx⟩
  · cases hstep
    exact h.deliver hget

-- == every interleaving

lemma Inv.init (buffer : Nat → UInt8) {j : Nat}
    (hsize : size.toNat = 2 ^ j) : Inv size (init buffer size) :=
  ⟨rfl, ⟨j, hsize⟩, rfl, rfl, le_rfl, Nat.zero_le _, rfl,
    fun q hq => absurd hq.2 (Nat.not_lt_zero q), trivial, trivial⟩

lemma Inv.step {a : Act} (h : Inv size s) (hstep : step s a = some s') : Inv size s' := by
  cases a with
  | callPut buffer =>
    unfold Kfifo.step at hstep
    dsimp only at hstep
    split at hstep
    · split at hstep
      · rename_i hlen
        cases hstep
        exact h.at hlen
      · exact absurd hstep (by simp)
    · exact absurd hstep (by simp)
  | put => exact h.putStep hstep
  | callGet len =>
    unfold Kfifo.step at hstep
    dsimp only at hstep
    split at hstep
    · cases hstep
      exact h.look trivial
    · exact absurd hstep (by simp)
  | get => exact h.getStep hstep

lemma Inv.run {as : List Act} (h : Inv size s) (hrun : runFrom s as = some s') : Inv size s' := by
  induction as generalizing s with
  | nil =>
    injection hrun with hrun
    exact hrun ▸ h
  | cons a as ih =>
    rw [runFrom, bind_eq_some_iff] at hrun
    obtain ⟨s1, hstep, hrest⟩ := hrun
    exact ih (h.step hstep) hrest

/-- Whatever the schedule: what was returned is a prefix of what was accepted,
no `memcpy` writes the slot of an unread byte, which holds what was accepted
there, and the indices are the low words of the two counts and never more than
the size apart. -/
theorem every_interleaving_queues {buffer : Nat → UInt8} {j : Nat}
    {as : List Act} (hsize : size.toNat = 2 ^ j) (hrun : runFrom (init buffer size) as = some s) :
    s.returned <+: s.accepted ∧
    (∀ q, s.Unread q → s.accepted[q]? = some (s.buffer (q % size.toNat)) ∧
      ∀ slot byte next, s.put.copy = some (slot, byte, next) → slot ≠ q % size.toNat) ∧
    (s.inIdx - s.outIdx).toNat ≤ size.toNat ∧
    s.inIdx = BitVec.ofNat 32 s.accepted.length ∧
    s.outIdx = BitVec.ofNat 32 s.returned.length := by
  have h := (Inv.init buffer hsize).run hrun
  have hsame := h.size
  have hfits := h.fits
  subst hsame
  refine ⟨?_, ?_, ?_, h.inIdx, h.outIdx⟩
  · rw [h.returned]
    exact take_prefix _ _
  · intro q hq
    refine ⟨h.held q hq, ?_⟩
    intro slot byte next hcopy
    obtain ⟨⟨c, hslot, hlt⟩, -⟩ := copy_spec (size_pos hsize) h.le h.put hcopy
    obtain ⟨hge, hlt'⟩ := hq
    rw [hslot]
    exact slot_ne (by omega) (by omega)
  · rw [h.inIdx, h.outIdx, toNat_unread hsize h.le hfits]
    omega

/-- A put of three bytes into a queue of two and a get of one that begins
before its update of `in`. -/
def overlapping : List Act :=
  .callPut [1, 2, 3] :: List.replicate 9 .put ++ [.callGet 1, .put] ++ List.replicate 9 .get

theorem overlapping_queues :
    ∃ s, runFrom (init (fun _ => 0) 2) overlapping = some s ∧
      s.accepted = [1, 2] ∧ s.returned = [1] ∧ s.returned <+: s.accepted := by
  have hsize : (2 : Word).toNat = 2 ^ 1 := rfl
  have hrun : runFrom (init (fun _ => 0) 2) overlapping = some _ := rfl
  exact ⟨_, hrun, rfl, rfl, (every_interleaving_queues hsize hrun).1⟩

end BoardStack.Kfifo
