/-
The environment of the boot loader, and copying a variable out of it: `getenv_r`
of common/cmd_nvedit.c.

The environment is read byte by byte, `env i` is `env_get_char(i)`. A
well-formed one has the variables one after the other, `name=value` with a null
character behind each and another behind the last.

The counter of `getenv_r` is raised before the end of the value is seen, and once
more when the length is used up. So what it leaves depends on where the value ends:
with room for the value, its null character and one more it is right; with room
for the value and its null character only, a second null character goes behind
the buffer; with less room there is no null character at all.
-/
import BoardStack.Base.Bytes

namespace BoardStack.Env

open Base List

/-- The character between a name and its value. -/
def equals : UInt8 := 61

-- == the code

/-- `envmatch`: the index of the value, or nothing. A name that ends where the
environment has a null character is not compared further: an entry has its
`=` before. -/
def envmatch (env : Mem) : List UInt8 → Nat → Option Nat
  | [], i2 => if env i2 = equals then some (i2 + 1) else none
  | c :: s1, i2 =>
    if c = env i2 then
      if c = equals then some (i2 + 1) else envmatch env s1 (i2 + 1)
    else none

/-- The end of the entry at `nxt`, if there is one before `CFG_ENV_SIZE`. -/
def entryEnd (env : Mem) (size : Nat) : Nat → Nat → Option Nat
  | 0, _ => none
  | fuel + 1, nxt =>
    if env nxt = 0 then some nxt
    else if nxt ≥ size then none
    else entryEnd env size fuel (nxt + 1)

/-- The loops of `getenv` and `getenv_r`: the index of the value of a name. -/
def findEntry (env : Mem) (size : Nat) (name : List UInt8) : Nat → Nat → Option Nat
  | 0, _ => none
  | fuel + 1, i =>
    if env i = 0 then none
    else
      match entryEnd env size (size + 1) i with
      | none => none
      | some nxt =>
        match envmatch env name i with
        | none => findEntry env size name fuel (nxt + 1)
        | some val => some val

-- == the variables

/-- A variable; a name has no `=`, and no string has a null character. -/
structure Var where
  name : List UInt8
  value : List UInt8
  name_ok : ∀ c, c ∈ name → c ≠ equals ∧ c ≠ 0
  value_ok : ∀ c, c ∈ value → c ≠ 0

/-- `name=value`. -/
def Var.text (v : Var) : List UInt8 := v.name ++ equals :: v.value

/-- The variables one after the other. -/
def image : List Var → List UInt8
  | [] => [0]
  | v :: vars => v.text ++ 0 :: image vars

/-- An environment that has the variables, within its size. -/
structure Holds (env : Mem) (size : Nat) (vars : List Var) : Prop where
  reads : Reads env 0 (image vars)
  fits : (image vars).length ≤ size

def valueOf (name : List UInt8) : List Var → Option (List UInt8)
  | [] => none
  | v :: vars => if v.name = name then some v.value else valueOf name vars

variable {env : Mem} {size i k : Nat} {name : List UInt8} {v : Var}
  {vars : List Var} {value : List UInt8}

lemma valueOf_ne_null (h : valueOf name vars = some value) : ∀ c, c ∈ value → c ≠ 0 := by
  induction vars with
  | nil => exact absurd h (by simp [valueOf])
  | cons v vars ih =>
    unfold valueOf at h
    split_ifs at h
    · obtain rfl := Option.some.inj h
      exact v.value_ok
    · exact ih h

-- == the search

lemma Var.text_ne_null (v : Var) : ∀ c, c ∈ v.text → c ≠ 0 := by
  exact forall_mem_append.mpr ⟨fun c hname => (v.name_ok c hname).2,
    forall_mem_cons.mpr ⟨by decide, v.value_ok⟩⟩

lemma Var.text_ne_nil (v : Var) : v.text ≠ [] := append_ne_nil_of_right_ne_nil _ (cons_ne_nil _ _)

lemma entryEnd_of_reads {text : List UInt8} {fuel : Nat} (hreads : Reads env i (text ++ [0]))
    (hnull : ∀ c, c ∈ text → c ≠ 0) (hfits : i + text.length < size) (hfuel : size < fuel + i) :
    entryEnd env size fuel i = some (i + text.length) := by
  induction text generalizing i fuel with
  | nil =>
    obtain ⟨hzero, -⟩ := hreads
    obtain ⟨fuel, rfl⟩ : ∃ f, fuel = f + 1 := ⟨fuel - 1, by simp only [length_nil] at hfits; omega⟩
    rw [entryEnd, if_pos hzero]
    rfl
  | cons c text ih =>
    obtain ⟨hc, hrest⟩ := hreads
    rw [length_cons] at hfits ⊢
    rcases fuel with _ | fuel
    · omega
    have hne : ¬env i = 0 := by
      rw [hc]
      exact hnull c (mem_cons_self ..)
    rw [entryEnd, if_neg hne, if_neg (by omega),
      ih hrest (fun d hd => hnull d (mem_cons_of_mem _ hd)) (by omega) (by omega)]
    congr 1
    omega

lemma envmatch_reads {name' tail : List UInt8} (hreads : Reads env i (name' ++ equals :: tail))
    (hname : ∀ c, c ∈ name → c ≠ equals) (hname' : ∀ c, c ∈ name' → c ≠ equals) :
    envmatch env name i = if name' = name then some (i + name'.length + 1) else none := by
  induction name generalizing i name' with
  | nil =>
    cases name' with
    | nil =>
      have heq : env i = equals := hreads.1
      rw [envmatch, if_pos heq, if_pos rfl]
      rfl
    | cons d name' =>
      have hne : ¬env i = equals := by
        rw [hreads.1]
        exact hname' d (mem_cons_self ..)
      rw [envmatch, if_neg hne, if_neg (cons_ne_nil _ _)]
  | cons c name ih =>
    have hc : c ≠ equals := hname c (mem_cons_self ..)
    cases name' with
    | nil =>
      have hne : ¬c = env i := by
        intro heq
        exact hc (heq.trans hreads.1)
      rw [envmatch, if_neg hne, if_neg (cons_ne_nil _ _).symm]
    | cons d name' =>
      obtain ⟨hd, hrest⟩ := hreads
      rw [envmatch, hd]
      by_cases hcd : c = d
      · subst hcd
        rw [if_pos rfl, if_neg hc, ih hrest (fun x hx => hname x (mem_cons_of_mem _ hx))
          (fun x hx => hname' x (mem_cons_of_mem _ hx))]
        simp only [List.cons.injEq, true_and, length_cons]
        split_ifs
        · congr 1
          omega
        · rfl
      · rw [if_neg hcd, if_neg]
        intro heq
        exact hcd (List.cons.inj heq).1.symm

lemma findEntry_reads {fuel : Nat} (hname : ∀ c, c ∈ name → c ≠ equals)
    (hvalue : valueOf name vars = some value) (hreads : Reads env i (image vars))
    (hfits : i + (image vars).length ≤ size) (hfuel : size < fuel + i) :
    ∃ val, findEntry env size name fuel i = some val ∧ Reads env val (value ++ [0]) := by
  induction vars generalizing i fuel with
  | nil => exact absurd hvalue (by simp [valueOf])
  | cons v vars ih =>
    have hlen : (image (v :: vars)).length = v.text.length + (1 + (image vars).length) := by
      simp [image]
      omega
    obtain ⟨htext, hnull, hrest⟩ := reads_append.mp hreads
    have hentry : Reads env i (v.text ++ [0]) := reads_append.mpr ⟨htext, hnull, trivial⟩
    have hne : ¬env i = 0 := by
      cases htail : v.text with
      | nil => exact absurd htail v.text_ne_nil
      | cons c text =>
        rw [htail] at htext
        rw [htext.1]
        exact v.text_ne_null c (htail ▸ mem_cons_self ..)
    rcases fuel with _ | fuel
    · omega
    rw [findEntry, if_neg hne, entryEnd_of_reads hentry v.text_ne_null (by omega) (by omega)]
    rw [envmatch_reads htext hname fun c hc => (v.name_ok c hc).1]
    by_cases heq : v.name = name
    · have hval : value = v.value := by
        simp only [valueOf, heq, if_true] at hvalue
        exact (Option.some.inj hvalue).symm
      rw [if_pos heq]
      refine ⟨_, rfl, ?_⟩
      unfold Var.text at hentry
      rw [append_assoc] at hentry
      rw [hval]
      exact (reads_append.mp hentry).2.2
    · rw [if_neg heq]
      simp only [valueOf, heq, if_false] at hvalue
      exact ih hvalue hrest (by omega) (by omega)

variable {env : Mem} {size len : Nat} {name value : List UInt8} {vars : List Var}

-- == the code

/-- What the copying loop leaves: `n`, the buffer, and how far `buf` moved. -/
structure Copied where
  n : Nat
  pos : Nat
  buf : Mem

/-- `while ((len > n++) && (*buf++ = env_get_char(val++)) != '\0')`; the first
argument is `len - n`. -/
def copyLoop (env : Mem) : Nat → Nat → Copied → Copied
  | 0, _, s => { s with n := s.n + 1 }
  | left + 1, val, s =>
    let c := env val
    let s : Copied := ⟨s.n + 1, s.pos + 1, Function.update s.buf s.pos c⟩
    if c ≠ 0 then copyLoop env left (val + 1) s else s

/-- `getenv_r`: what it returns, and the buffer. -/
def getenvR (env : Mem) (size : Nat) (name : List UInt8) (buf : Mem) (len : Nat) : Int × Mem :=
  match findEntry env size name (size + 1) 0 with
  | none => (-1, buf)
  | some val =>
    let s := copyLoop env len val ⟨0, 0, buf⟩
    ((s.n : Int), if len = s.n then Function.update s.buf s.pos 0 else s.buf)

-- == the loop

/-- The loop copies as much of a text and its null character as there is room
for, and has counted one more if it stopped for the room. -/
lemma copyLoop_reads {left val n pos : Nat} {buf : Mem}
    (hreads : Reads env val (value ++ [0])) (hnull : ∀ c, c ∈ value → c ≠ 0) :
    copyLoop env left val ⟨n, pos, buf⟩
      = ⟨n + min left value.length + 1, pos + min left (value.length + 1),
        write buf pos ((value ++ [0]).take left)⟩ := by
  induction left generalizing val n pos buf value with
  | zero => simp [copyLoop]
  | succ left ih =>
    cases value with
    | nil =>
      have hzero : env val = 0 := hreads.1
      rw [copyLoop, hzero]
      simp [update_eq_write]
    | cons c value =>
      obtain ⟨hc, hrest⟩ := hreads
      have hne : c ≠ 0 := hnull c (mem_cons_self ..)
      rw [copyLoop, hc]
      dsimp only
      rw [if_pos hne, ih hrest fun d hd => hnull d (mem_cons_of_mem _ hd),
        update_eq_write, cons_append, take_succ_cons]
      have hone := write_append buf pos [c] ((value ++ [0]).take left)
      rw [length_singleton, singleton_append] at hone
      rw [hone, length_cons]
      congr 1 <;> omega

section

variable (h : Holds env size vars) (hname : ∀ c, c ∈ name → c ≠ equals)
  (hvalue : valueOf name vars = some value) (buf : Mem)
include h hname hvalue

lemma getenvR_eq (len : Nat) :
    getenvR env size name buf len = (((min len value.length + 1 : Nat) : Int),
        if len = value.length + 1 then write buf 0 (value ++ [0, 0])
        else write buf 0 ((value ++ [0]).take len)) := by
  have hfits : 0 + (image vars).length ≤ size := by
    rw [zero_add]
    exact h.fits
  have hfuel : size < size + 1 + 0 := Nat.lt_succ_self size
  obtain ⟨val, hfind, hreads⟩ := findEntry_reads hname hvalue h.reads hfits hfuel
  have hnull : ∀ c, c ∈ value → c ≠ 0 := valueOf_ne_null hvalue
  unfold getenvR
  rw [hfind]
  dsimp only
  rw [copyLoop_reads hreads hnull]
  dsimp only
  rw [zero_add, zero_add]
  by_cases hexact : len = value.length + 1
  · have hall : (value ++ [0]).take len = value ++ [0] := by
      apply take_of_length_le
      rw [length_append, length_singleton]
      omega
    have hend := update_write_end buf 0 (value ++ [0]) 0
    rw [zero_add, length_append, length_singleton, append_assoc] at hend
    rw [if_pos (by omega), if_pos hexact, hall,
      min_eq_right (by omega : value.length + 1 ≤ len), hend]
    rfl
  · rw [if_neg (by omega), if_neg hexact]

/-- With exactly the room for the value and its null character, a second one
goes behind the buffer. -/
lemma getenvR_spills : (getenvR env size name buf (value.length + 1)).2 (value.length + 1) = 0 := by
  rw [getenvR_eq h hname hvalue, if_pos rfl]
  have hat : (value ++ [0, 0])[value.length + 1]? = some 0 := by simp
  have hlast := write_getElem? (m := buf) (a := 0) hat
  rwa [zero_add] at hlast

lemma getenvR_unterminated (hshort : len ≤ value.length) (hi : i < len) :
    (getenvR env size name buf len).2 i ≠ 0 := by
  have hlt : i < value.length := by omega
  have hat : ((value ++ [0]).take len)[i]? = some value[i] := by simp [hi, getElem?_append_left hlt]
  have hchar := write_getElem? (m := buf) (a := 0) hat
  rw [zero_add] at hchar
  rw [getenvR_eq h hname hvalue, if_neg (by omega)]
  exact hchar.trans_ne (valueOf_ne_null hvalue _ (getElem_mem hlt))

end

-- == the result

/-- Whatever the buffer held, it gets the value, cut off where there is no room, with
its null character, and nothing is written behind it: this holds if and only if
there is room for one more than the value and its null character. -/
theorem getenvR_copies_iff (h : Holds env size vars) (hname : ∀ c, c ∈ name → c ≠ equals)
    (hvalue : valueOf name vars = some value) (len : Nat) (hlen : 1 ≤ len) :
    (∀ buf : Mem, (∀ i, len ≤ i → (getenvR env size name buf len).2 i = buf i) ∧
      Reads (getenvR env size name buf len).2 0 (value.take (len - 1) ++ [0])) ↔
    value.length + 2 ≤ len := by
  constructor
  · intro hcopies
    by_contra hshort
    obtain ⟨hinside, hreads⟩ := hcopies fun _ => 1
    rcases Nat.lt_or_ge value.length len with hexact | hshort
    · obtain rfl : len = value.length + 1 := by omega
      have hspill := getenvR_spills h hname hvalue fun _ => 1
      rw [hinside _ le_rfl] at hspill
      exact absurd hspill (by decide)
    · -- the null character would have to be the last byte
      have hlast := ((reads_append ..).mp hreads).2.1
      rw [length_take, min_eq_left (by omega), zero_add] at hlast
      exact getenvR_unterminated h hname hvalue _ hshort (by omega) hlast
  · intro hroom buf
    have hall : (value ++ [0]).take len = value ++ [0] := by
      apply take_of_length_le
      rw [length_append, length_singleton]
      omega
    rw [getenvR_eq h hname hvalue, if_neg (by omega), hall]
    dsimp only
    refine ⟨?_, ?_⟩
    · intro i hi
      apply write_of_outside
      rw [length_append, length_singleton]
      omega
    · rw [take_of_length_le (by omega)]
      exact reads_write buf 0 _

/-- The variable `a=b`. -/
def aIsB : Var where
  name := [97]
  value := [98]
  name_ok := forall_mem_singleton.mpr (by decide)
  value_ok := forall_mem_singleton.mpr (by decide)

def oneVar : Mem := write (fun _ => 0) 0 [97, equals, 98, 0, 0]

lemma oneVar_holds : Holds oneVar 16 [aIsB] := ⟨reads_write _ 0 _, by decide⟩

theorem oneVar_copied : Reads (getenvR oneVar 16 [97] (fun _ => 1) 3).2 0 [98, 0] := by
  have hname : ∀ c, c ∈ [(97 : UInt8)] → c ≠ equals := fun c hc => (aIsB.name_ok c hc).1
  have hroom : [(98 : UInt8)].length + 2 ≤ 3 := by decide
  exact ((getenvR_copies_iff oneVar_holds hname rfl 3 (by decide)).mpr hroom fun _ => 1).2

/-- Two bytes of room for `b`: the third byte is overwritten. One byte of room:
it gets no null character. -/
theorem oneVar_spills_or_unterminated :
    Holds oneVar 16 [aIsB] ∧
    (getenvR oneVar 16 [97] (fun _ => 1) 2).2 2 = 0 ∧
    (getenvR oneVar 16 [97] (fun _ => 1) 1).2 0 = 98 :=
  ⟨oneVar_holds, by decide, by decide⟩

end BoardStack.Env
