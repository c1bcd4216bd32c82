/-
The walk over the locks of one owner.

`Scan` is what holds while the walk is under way: which of the owner's locks were
kept (`Q`), which one is to be trimmed (`L`), what became of the request (`M`),
and that outside of the bytes requested the locks passed still mean what they
meant. There is one lemma for each thing the loop can do with a lock, and
`lockLoop_stops` puts them together: how the walk ends.
-/
import BoardStack.Locks.Basic

namespace BoardStack.Locks

open List

variable {O : Type}
variable {b : Int} {a fl : Lock O} {o : O}

-- == the groups

/-- The first lock ends before the second, and does not touch it if they are of
the same type. -/
def Clear (a b : Lock O) : Prop := a.end_ < b.start ∧ (a.type = b.type → a.end_ + 1 < b.start)

structure Held (l : Lock O) : Prop extends Valid l where
  type_ne : l.type ≠ .unlck

/-- The locks of one owner, sorted and merged. -/
structure Group (o : O) (g : List (Lock O)) : Prop where
  held : ∀ a ∈ g, Held a
  owner : ∀ a ∈ g, a.owner = o
  clear : g.Pairwise Clear

lemma Clear.trans {b c : Lock O} (hab : Clear a b) (hbc : Clear b c)
    (hb : b.start ≤ b.end_) : Clear a c := by
  have h1 := hab.1
  have h2 := hbc.1
  exact ⟨by omega, fun _ => by omega⟩

variable {g g' : List (Lock O)}

lemma Group.sublist (h : Group o g) (hs : g'.Sublist g) : Group o g' :=
  ⟨fun a ha => h.held a (hs.subset ha), fun a ha => h.owner a (hs.subset ha), h.clear.sublist hs⟩

lemma Group.across (h : Group o (g ++ g')) : ∀ a ∈ g, ∀ b ∈ g', Clear a b :=
  (pairwise_append.mp h.clear).2.2

variable {D G : List (Lock O)}

lemma Group.after (h : Group o (D ++ fl :: G)) : ∀ a ∈ G, Clear fl a :=
  (pairwise_cons.mp (pairwise_append.mp h.clear).2.1).1

lemma Group.here (h : Group o (D ++ fl :: G)) : Held fl := h.held fl (by simp)

-- == the bytes

lemma typeAt_nil (b : Int) : typeAt ([] : List (Lock O)) b = none := rfl

lemma typeAt_cons (l : Lock O) (g : List (Lock O)) (b : Int) :
    typeAt (l :: g) b = if l.start ≤ b ∧ b ≤ l.end_ then some l.type else typeAt g b := by
  unfold typeAt
  rw [List.find?_cons]
  split
  · next h => simp [of_decide_eq_true h]
  · next h => simp [of_decide_eq_false h]

lemma typeAt_append (g g' : List (Lock O)) (b : Int) :
    typeAt (g ++ g') b = (typeAt g b).or (typeAt g' b) := by
  induction g with
  | nil => rfl
  | cons l g ih =>
    rw [cons_append, typeAt_cons, typeAt_cons, ih]
    split <;> rfl

variable {g : List (Lock O)}

lemma typeAt_eq_none : typeAt g b = none ↔ ∀ a ∈ g, ¬(a.start ≤ b ∧ b ≤ a.end_) := by
  simp [typeAt]

lemma typeAt_of_mem (h : Group o g) (ha : a ∈ g) (hb : a.start ≤ b ∧ b ≤ a.end_) :
    typeAt g b = some a.type := by
  induction g with
  | nil => cases ha
  | cons c g ih =>
    rw [typeAt_cons]
    rcases mem_cons.mp ha with rfl | ha
    · rw [if_pos hb]
    · have hc := ((pairwise_cons.mp h.clear).1 a ha).1
      rw [if_neg (by omega)]
      exact ih (h.sublist (sublist_cons_self _ _)) ha

lemma exists_of_typeAt {t : LockType} (h : typeAt g b = some t) :
    ∃ a ∈ g, (a.start ≤ b ∧ b ≤ a.end_) ∧ a.type = t := by
  obtain ⟨a, hfind, ht⟩ := Option.map_eq_some_iff.mp h
  refine ⟨a, List.mem_of_find?_eq_some hfind, ?_, ht⟩
  simpa using List.find?_some hfind

lemma locksOverlap_iff {b : Lock O} (ha : a.start ≤ a.end_)
    (hb : b.start ≤ b.end_) : locksOverlap a b = true ↔
      ∃ x, (a.start ≤ x ∧ x ≤ a.end_) ∧ (b.start ≤ x ∧ x ≤ b.end_) := by
  simp only [locksOverlap, Bool.and_eq_true, decide_eq_true_eq]
  constructor
  · rintro ⟨h1, h2⟩
    exact ⟨max a.start b.start, by omega, by omega⟩
  · rintro ⟨x, h1, h2⟩
    omega

-- == the loop

/-- What the loop can do with a lock before it goes on to the next one. -/
inductive Step (w : Walk O) (fl : Lock O) : Walk O → Prop where
  | skip : Clear fl w.request → Step w fl (w.next fl)
  | join : w.added = false → w.request.type = fl.type →
      w.request.start - 1 ≤ fl.end_ → fl.start - 1 ≤ w.request.end_ →
      Step w fl (w.become { fl with
        start := if fl.start > w.request.start then w.request.start else fl.start
        end_ := if fl.end_ < w.request.end_ then w.request.end_ else fl.end_ })
  | merge : w.added = true → w.request.type = fl.type →
      fl.start - 1 ≤ w.request.end_ →
      Step w fl (w.setRequest (if fl.start > w.request.start then w.request.start else fl.start)
        (if fl.end_ < w.request.end_ then w.request.end_ else fl.end_))
  | erase : w.added = true ∨ w.request.type = .unlck →
      w.request.start ≤ fl.start → fl.end_ ≤ w.request.end_ →
      Step w fl { w with added := true }
  | replace : w.added = false → w.request.type ≠ .unlck →
      w.request.start ≤ fl.start → fl.end_ ≤ w.request.end_ →
      Step w fl (w.become { fl with
        start := w.request.start
        end_ := w.request.end_
        type := w.request.type })
  | leave : w.request.type ≠ fl.type → fl.start < w.request.start →
      w.request.start ≤ fl.end_ → fl.end_ ≤ w.request.end_ →
      Step w fl (Walk.next { w with
        added := if w.request.type = .unlck then true else w.added
        left := some w.passed.length } fl)

inductive Halt (w : Walk O) (fl : Lock O) (rest : List (Lock O)) : Walk O → Prop where
  | clear : Clear w.request fl → Halt w fl rest { w with rest := fl :: rest }
  | right : w.request.type ≠ fl.type → fl.start ≤ w.request.end_ →
      w.request.end_ < fl.end_ →
      Halt w fl rest { w with
        added := if w.request.type = .unlck then true else w.added
        left := if fl.start < w.request.start then some w.passed.length
          else w.left
        right := true
        rest := fl :: rest }

section

variable [DecidableEq O]

lemma lockLoop_post {post : List (Lock O)} {w : Walk O}
    (hpost : ∀ fl ∈ post.head?, o ≠ fl.owner) (howner : w.request.owner = o) :
    lockLoop w post = { w with rest := post } := by
  cases post with
  | nil => rfl
  | cons fl post =>
    unfold lockLoop
    rw [if_pos (howner ▸ hpost fl rfl)]

lemma lockLoop_cons {w : Walk O} (howner : w.request.owner = fl.owner) (rest : List (Lock O)) :
    (∃ w', Step w fl w' ∧ lockLoop w (fl :: rest) = lockLoop w' rest) ∨
      Halt w fl rest (lockLoop w (fl :: rest)) := by
  rw [lockLoop, if_neg (not_not.mpr howner)]
  by_cases htype : w.request.type = fl.type
  · rw [if_pos htype]
    by_cases h1 : fl.end_ < w.request.start - 1
    · rw [if_pos h1]
      exact .inl ⟨_, .skip ⟨by omega, fun _ => by omega⟩, rfl⟩
    rw [if_neg h1]
    by_cases h2 : fl.start - 1 > w.request.end_
    · rw [if_pos h2]
      exact .inr (.clear ⟨by omega, fun _ => by omega⟩)
    rw [if_neg h2]
    refine .inl ?_
    cases hadd : w.added with
    | true => exact ⟨_, .merge hadd htype (by omega), rfl⟩
    | false => exact ⟨_, .join hadd htype (by omega) (by omega), rfl⟩
  · rw [if_neg htype]
    by_cases h1 : fl.end_ < w.request.start
    · rw [if_pos h1]
      exact .inl ⟨_, .skip ⟨h1, fun he => absurd he.symm htype⟩, rfl⟩
    rw [if_neg h1]
    by_cases h2 : fl.start > w.request.end_
    · rw [if_pos h2]
      exact .inr (.clear ⟨h2, fun he => absurd he htype⟩)
    rw [if_neg h2]
    by_cases h3 : fl.end_ > w.request.end_
    · simp only [if_pos h3]
      exact .inr (.right htype (by omega) h3)
    simp only [if_neg h3]
    refine .inl ?_
    by_cases h4 : fl.start ≥ w.request.start
    · simp only [if_pos h4, if_neg (Int.not_lt.mpr h4)]
      by_cases hadd : (if w.request.type = .unlck then true
          else w.added) = true
      · simp only [hadd]
        refine ⟨_, .erase ?_ h4 (by omega), rfl⟩
        split at hadd
        · exact .inr ‹_›
        · exact .inl hadd
      · rw [if_neg hadd]
        split at hadd
        · exact absurd rfl hadd
        · next hun =>
            exact ⟨_, .replace (by simpa using hadd) hun h4 (by omega), rfl⟩
    · simp only [if_neg h4, if_pos (Int.not_le.mp h4)]
      exact ⟨_, .leave htype (by omega) (by omega) (by omega), rfl⟩

end

-- == the scan

/-- The walk has passed the locks `D` of the owner of the request `R`; the locks
`G` are to come. In the list there now are `Q`, which do not touch the request,
at most one lock `L` that reaches into it from the left, and in `M` the request
itself, if it has become a lock of the list. -/
structure Scan (R : Lock O) (pre D G Q L M : List (Lock O)) (w : Walk O) : Prop where
  group : Group R.owner (D ++ G)
  passed : w.passed = pre ++ (Q ++ (L ++ M))
  owner : w.request.owner = R.owner
  type : w.request.type = R.type
  valid : Valid w.request
  start_le : w.request.start ≤ R.start
  le_end : R.end_ ≤ w.request.end_
  clear : ∀ a ∈ Q, Clear a w.request
  left : (L = [] ∧ w.left = none) ∨ ∃ l, L = [l] ∧
    w.left = some (pre.length + Q.length) ∧ l.type ≠ R.type ∧
    l.start < R.start ∧ R.start ≤ l.end_ ∧ l.end_ ≤ R.end_ ∧
    w.request.start = R.start ∧ (R.type = .unlck → w.added = true)
  merged : (M = [] ∧ w.pos = none ∧ w.request = R ∧ (w.added = true → R.type = .unlck)) ∨
    (M = [w.request] ∧ w.pos = some (pre.length + (Q.length + L.length)) ∧
      w.added = true ∧ R.type ≠ .unlck)
  kept : (Q ++ L).Sublist D
  far : w.request.end_ = R.end_ ∨ ∀ a ∈ G, Clear w.request a
  touched : w.added = true ∨ L ≠ [] → ∀ a ∈ G, R.start ≤ a.start
  untouched : w.added = false → D = Q ++ L
  map : ∀ b, ¬(R.start ≤ b ∧ b ≤ R.end_) → typeAt D b = typeAt (Q ++ (L ++ M)) b
  right : w.right = false

namespace Scan

variable {R fl : Lock O} {pre D G Q L M : List (Lock O)} {w : Walk O}

lemma group_next (h : Scan R pre D (fl :: G) Q L M w) : Group R.owner ((D ++ [fl]) ++ G) := by
  have hg := h.group
  rwa [append_cons] at hg

lemma fresh (h : Scan R pre D (fl :: G) Q L M w) (hlt : fl.start < R.start) :
    w.added = false ∧ w.left = none ∧ w.pos = none ∧ w.request = R ∧ L = [] ∧ M = [] ∧ D = Q := by
  have hno : ¬(w.added = true ∨ L ≠ []) := by
    intro ht
    have hle := h.touched ht fl (by simp)
    omega
  have hadd : w.added = false := by simpa using fun ht => hno (.inl ht)
  have hL : L = [] := by simpa using fun ht => hno (.inr ht)
  have hD := h.untouched hadd
  rw [hL, append_nil] at hD
  rcases h.left with ⟨-, hleft⟩ | ⟨l, hl, -⟩
  · rcases h.merged with ⟨hM, hpos, hreq, -⟩ | ⟨-, -, ht, -⟩
    · exact ⟨hadd, hleft, hpos, hreq, hL, hM, hD⟩
    · exact absurd hadd (by simp [ht])
  · exact absurd hl (by simp [hL])

/-- As long as no lock was merged with the request or replaced by it, and no
byte was unlocked, the request is the one made. -/
lemma asked (h : Scan R pre D G Q L M w) (hadd : w.added = false) :
    w.pos = none ∧ w.request = R ∧ M = [] ∧ D = Q ++ L := by
  rcases h.merged with ⟨hM, hpos, hreq, -⟩ | ⟨-, -, ht, -⟩
  · exact ⟨hpos, hreq, hM, h.untouched hadd⟩
  · exact absurd hadd (by simp [ht])

section

variable (h : Scan R pre D (fl :: G) Q L M w)

include h

lemma clear_next : ∀ a ∈ Q ++ L, Clear a fl := by
  intro a ha
  exact h.group.across a (h.kept.subset ha) fl (by simp)

lemma end_eq (hreach : ¬Clear w.request fl) : w.request.end_ = R.end_ := by
  rcases h.far with he | hc
  · exact he
  · exact absurd (hc fl (by simp)) hreach

-- == the steps

lemma skip (hc : Clear fl w.request) : Scan R pre (D ++ [fl]) G (Q ++ [fl]) L M (w.next fl) := by
  have hheld := h.group.here
  have hlt : fl.start < R.start := by
    have h1 := hc.1
    have h2 := h.start_le
    have h3 := hheld.le
    omega
  obtain ⟨hadd, hleft, hpos, hreq, hL, hM, hD⟩ := h.fresh hlt
  subst hL hM hD
  refine ⟨h.group_next, ?_, h.owner, h.type, h.valid, h.start_le, h.le_end, ?_,
    .inl ⟨rfl, hleft⟩, .inl ⟨rfl, hpos, hreq, ?_⟩, ?_, ?_, ?_, ?_, ?_, h.right⟩
  · show w.passed ++ [fl] = _
    rw [h.passed]
    simp
  · exact forall_mem_append.mpr ⟨h.clear, forall_mem_singleton.mpr hc⟩
  · intro ht
    exact absurd ht (by simp [Walk.next, hadd])
  · simp
  · exact .inl (by rw [Walk.next, hreq])
  · intro ht
    simp [Walk.next, hadd] at ht
  · simp
  · simp

variable {start end_ : Int}

lemma join (hadd : w.added = false) (htype : w.request.type = fl.type)
    (hend : w.request.start - 1 ≤ fl.end_) (hstart : fl.start - 1 ≤ w.request.end_)
    (hs : start = if fl.start > w.request.start then w.request.start else fl.start)
    (he : end_ = if fl.end_ < w.request.end_ then w.request.end_ else fl.end_) :
    Scan R pre (D ++ [fl]) G Q L [{ fl with start, end_ }] (w.become { fl with start, end_ }) := by
  have hheld := h.group.here
  have hvalid := h.valid
  obtain ⟨hpos, hreq, hM, hD⟩ := h.asked hadd
  have hclear := h.clear_next
  have hafter := h.group.after
  rw [hreq] at htype hend hstart hs he hvalid
  subst hM hD
  have hRle := hvalid.le
  refine ⟨h.group_next, ?_, h.group.owner fl (by simp), htype.symm, ?_, ?_, ?_,
    ?_, ?_, .inr ⟨rfl, ?_, rfl, ?_⟩, ?_, ?_, ?_, ?_, ?_, h.right⟩
  · show w.passed ++ [_] = _
    rw [h.passed]
    simp
  · refine ⟨?_, ?_, ?_⟩
    · have h1 := hheld.nonneg
      have h2 := hvalid.nonneg
      show 0 ≤ start
      split at hs <;> omega
    · show start ≤ end_
      split at hs <;> split at he <;> omega
    · have h1 := hheld.le_max
      have h2 := hvalid.le_max
      show end_ ≤ offsetMax
      split at he <;> omega
  · show start ≤ R.start
    split at hs <;> omega
  · show R.end_ ≤ end_
    split at he <;> omega
  · intro a ha
    have h1 := h.clear a ha
    have h2 := hclear a (mem_append_left _ ha)
    rw [hreq] at h1
    show a.end_ < start ∧ (a.type = fl.type → a.end_ + 1 < start)
    split at hs
    · rw [hs, ← htype]
      exact h1
    · rw [hs]
      exact h2
  · rcases h.left with ⟨hL, hl⟩ | ⟨l, hL, hl, hne, hlt, hin, hout, -, -⟩
    · exact .inl ⟨hL, hl⟩
    refine .inr ⟨l, hL, hl, hne, hlt, hin, hout, ?_, fun _ => rfl⟩
    have h1 := hclear l (by simp [hL])
    have h2 := h1.1
    show start = R.start
    split at hs <;> omega
  · show some w.passed.length = _
    rw [h.passed]
    simp
  · rw [htype]
    exact hheld.type_ne
  · simp
  · show end_ = R.end_ ∨ ∀ a ∈ G, Clear { fl with start, end_ } a
    split at he
    · exact .inl he
    · refine .inr fun a ha => ?_
      rw [he]
      exact hafter a ha
  · intro _ a ha
    have h1 := (hafter a ha).1
    omega
  · intro ht
    cases ht
  · intro b hb
    rw [typeAt_append, ← append_assoc, typeAt_append (Q ++ L)]
    congr 1
    rw [typeAt_cons, typeAt_cons]
    have hiff : (fl.start ≤ b ∧ b ≤ fl.end_) ↔ (start ≤ b ∧ b ≤ end_) := by
      split at hs <;> split at he <;> omega
    simp only [hiff]

lemma merge (hadd : w.added = true) (htype : w.request.type = fl.type)
    (hstart : fl.start - 1 ≤ w.request.end_)
    (hs : start = if fl.start > w.request.start then w.request.start else fl.start)
    (he : end_ = if fl.end_ < w.request.end_ then w.request.end_ else fl.end_) :
    Scan R pre (D ++ [fl]) G Q L [{ w.request with start, end_ }] (w.setRequest start end_) := by
  have hheld := h.group.here
  have hvalid := h.valid
  have hRle := h.start_le
  have hafter := h.group.after
  have hRs := h.touched (.inl hadd) fl (by simp)
  have hRe : w.request.end_ = R.end_ := by
    refine h.end_eq fun hc => ?_
    have h1 := hc.2 htype
    omega
  have hs' : start = w.request.start := by split at hs <;> omega
  obtain ⟨hM, hpos, -, hne⟩ : M = [w.request] ∧
      w.pos = some (pre.length + (Q.length + L.length)) ∧ w.added = true ∧
      R.type ≠ .unlck := by
    rcases h.merged with ⟨-, -, -, hun⟩ | hm
    · have h1 := hun hadd
      rw [← h.type, htype] at h1
      exact absurd h1 hheld.type_ne
    · exact hm
  subst hM hs'
  have hpassed : (w.setRequest w.request.start end_).passed =
      pre ++ (Q ++ (L ++ [{ w.request with end_ }])) := by
    simp [Walk.setRequest, hpos, h.passed]
  refine ⟨h.group_next, hpassed, h.owner, h.type, ⟨hvalid.nonneg, ?_, ?_⟩, hRle,
    ?_, h.clear, ?_, .inr ⟨rfl, hpos, hadd, hne⟩, ?_, ?_, ?_, ?_, ?_, h.right⟩
  · have h1 := hvalid.le
    show w.request.start ≤ end_
    split at he <;> omega
  · have h1 := hheld.le_max
    have h2 := hvalid.le_max
    show end_ ≤ offsetMax
    split at he <;> omega
  · show R.end_ ≤ end_
    split at he <;> omega
  · exact h.left
  · exact h.kept.trans (sublist_append_left _ _)
  · show end_ = R.end_ ∨ ∀ a ∈ G, Clear { w.request with end_ } a
    split at he
    · exact .inl (by omega)
    refine .inr fun a ha => ?_
    have h1 := hafter a ha
    rw [he]
    show fl.end_ < a.start ∧ (w.request.type = a.type → fl.end_ + 1 < a.start)
    rw [htype]
    exact h1
  · intro _ a ha
    exact h.touched (.inl hadd) a (mem_cons_of_mem _ ha)
  · intro ht
    exact absurd hadd (by simp [show w.added = false from ht])
  · intro b hb
    rw [typeAt_append, h.map b hb, ← append_assoc, ← append_assoc,
      typeAt_append (Q ++ L), typeAt_append (Q ++ L), Option.or_assoc]
    congr 1
    simp only [typeAt_cons, typeAt_nil]
    rw [htype]
    have hiff : (w.request.start ≤ b ∧ b ≤ w.request.end_) ∨
        (fl.start ≤ b ∧ b ≤ fl.end_) ↔ w.request.start ≤ b ∧ b ≤ end_ := by
      split at he <;> omega
    by_cases h1 : w.request.start ≤ b ∧ b ≤ w.request.end_
    · rw [if_pos h1, if_pos (hiff.mp (.inl h1))]
      rfl
    by_cases h2 : fl.start ≤ b ∧ b ≤ fl.end_
    · rw [if_neg h1, if_pos h2, if_pos (hiff.mp (.inr h2))]
      rfl
    · rw [if_neg h1, if_neg h2, if_neg fun h3 => (hiff.mpr h3).elim h1 h2]
      rfl

/-- A lock of another type within the bytes requested is deleted, once there is
no need for it any more. -/
lemma erase (hadd : w.added = true ∨ R.type = .unlck)
    (hstart : w.request.start ≤ fl.start) (hend : fl.end_ ≤ w.request.end_) :
    Scan R pre (D ++ [fl]) G Q L M { w with added := true } := by
  have hheld := h.group.here
  have hle := hheld.le
  have hafter := h.group.after
  have hRe : w.request.end_ = R.end_ := by
    refine h.end_eq fun hc => ?_
    have h1 := hc.1
    omega
  have hRs : R.start ≤ fl.start := by
    rcases hadd with hadd | hun
    · exact h.touched (.inl hadd) fl (by simp)
    · rcases h.merged with ⟨-, -, hreq, -⟩ | ⟨-, -, -, hne⟩
      · rwa [hreq] at hstart
      · exact absurd hun hne
  refine ⟨h.group_next, h.passed, h.owner, h.type, h.valid, h.start_le, h.le_end,
    h.clear, ?_, ?_, h.kept.trans (sublist_append_left _ _), .inl hRe, ?_, ?_, ?_, h.right⟩
  · rcases h.left with hl | ⟨l, hL, hl, hn, hlt, hin, hout, hs, -⟩
    · exact .inl hl
    · exact .inr ⟨l, hL, hl, hn, hlt, hin, hout, hs, fun _ => rfl⟩
  · rcases h.merged with ⟨hM, hpos, hreq, hun⟩ | ⟨hM, hpos, -, hn⟩
    · exact .inl ⟨hM, hpos, hreq, fun _ => hadd.elim hun id⟩
    · exact .inr ⟨hM, hpos, rfl, hn⟩
  · intro _ a ha
    have h1 := (hafter a ha).1
    omega
  · intro ht
    cases ht
  · intro b hb
    rw [typeAt_append, h.map b hb, typeAt_cons, if_neg (by omega), typeAt_nil, Option.or_none]

lemma replace (hadd : w.added = false) (hun : R.type ≠ .unlck)
    (hstart : w.request.start ≤ fl.start) (hend : fl.end_ ≤ w.request.end_) :
    Scan R pre (D ++ [fl]) G Q L [{ fl with
        start := w.request.start
        end_ := w.request.end_
        type := w.request.type }]
      (w.become { fl with
        start := w.request.start
        end_ := w.request.end_
        type := w.request.type }) := by
  have hheld := h.group.here
  have hle := hheld.le
  have hafter := h.group.after
  obtain ⟨hpos, hreq, hM, hD⟩ := h.asked hadd
  have hvalid := h.valid
  have hclear := h.clear
  rw [hreq] at hstart hend hvalid hclear ⊢
  subst hM hD
  refine ⟨h.group_next, ?_, h.group.owner fl (by simp), rfl,
    ⟨hvalid.nonneg, hvalid.le, hvalid.le_max⟩, Int.le_refl _, Int.le_refl _, hclear,
    ?_, .inr ⟨rfl, ?_, rfl, hun⟩, ?_, .inl rfl, ?_, ?_, ?_, h.right⟩
  · show w.passed ++ [_] = _
    rw [h.passed]
    simp
  · rcases h.left with hl | ⟨l, hL, hl, hn, hlt, hin, hout, -, -⟩
    · exact .inl hl
    · exact .inr ⟨l, hL, hl, hn, hlt, hin, hout, rfl, fun _ => rfl⟩
  · show some w.passed.length = _
    rw [h.passed]
    simp
  · exact sublist_append_left _ _
  · intro _ a ha
    have h1 := (hafter a ha).1
    omega
  · intro ht
    cases ht
  · intro b hb
    rw [typeAt_append, ← append_assoc, typeAt_append (Q ++ L)]
    congr 1
    rw [typeAt_cons, typeAt_cons, if_neg (by omega), if_neg hb]

lemma leave (hstart : fl.start < w.request.start) (hin : w.request.start ≤ fl.end_)
    (hend : fl.end_ ≤ w.request.end_) (hne : w.request.type ≠ fl.type) :
    Scan R pre (D ++ [fl]) G Q [fl] M (Walk.next { w with
        added := if w.request.type = .unlck then true else w.added
        left := some w.passed.length } fl) := by
  have hafter := h.group.after
  have hlt : fl.start < R.start := by
    have h1 := h.start_le
    omega
  obtain ⟨hadd, hleft, hpos, hreq, hL, hM, hD⟩ := h.fresh hlt
  have hlen : w.passed.length = pre.length + Q.length := by
    rw [h.passed, hL, hM]
    simp
  subst hL hM hD
  have hadded : (if R.type = .unlck then true else w.added) = true → R.type = .unlck := by
    intro ht
    split at ht
    · assumption
    · exact absurd ht (by simp [hadd])
  rw [hreq] at hstart hin hend hne
  refine ⟨h.group_next, ?_, h.owner, h.type, h.valid, h.start_le, h.le_end,
    h.clear, .inr ⟨fl, rfl, ?_, hne.symm, hlt, hin, hend, ?_, ?_⟩,
    .inl ⟨rfl, hpos, hreq, ?_⟩, List.Sublist.refl _, ?_, ?_, ?_, ?_, h.right⟩
  · show w.passed ++ [fl] = _
    rw [h.passed]
    simp
  · exact congrArg some hlen
  · show w.request.start = R.start
    rw [hreq]
  · intro hun
    show (if w.request.type = .unlck then true else w.added) = true
    rw [hreq, if_pos hun]
  · show (if w.request.type = .unlck then true else w.added) = true → _
    rw [hreq]
    exact hadded
  · exact .inl (by show w.request.end_ = R.end_; rw [hreq])
  · intro _ a ha
    have h1 := (hafter a ha).1
    omega
  · simp
  · simp

end

lemma setRest (h : Scan R pre D G Q L M w) (rest : List (Lock O)) :
    Scan R pre D G Q L M { w with rest } :=
  ⟨h.group, h.passed, h.owner, h.type, h.valid, h.start_le, h.le_end, h.clear,
    h.left, h.merged, h.kept, h.far, h.touched, h.untouched, h.map, h.right⟩

end Scan

-- == where the walk stops

/-- A walk over the locks `g` has stopped: before a lock that is clear of the
request, or at one of another type that reaches beyond it. -/
inductive Stopped (R : Lock O) (pre g post : List (Lock O)) : Walk O → Prop where
  | clear {D G Q L M : List (Lock O)} {w : Walk O} :
      Scan R pre D G Q L M w → D ++ G = g → w.rest = G ++ post →
      (∀ a ∈ G, Clear w.request a) → Stopped R pre g post w
  | right {D G Q L M : List (Lock O)} {fl : Lock O} {w : Walk O} :
      Scan R pre D (fl :: G) Q L M w → D ++ fl :: G = g →
      w.request.type ≠ fl.type → fl.start ≤ w.request.end_ →
      w.request.end_ < fl.end_ →
      Stopped R pre g post { w with
        added := if w.request.type = .unlck then true else w.added
        left := if fl.start < w.request.start then some w.passed.length
          else w.left
        right := true
        rest := fl :: (G ++ post) }

lemma clear_rest {r : Lock O}
    (hg : Group o (D ++ fl :: G)) (hc : Clear r fl) : ∀ a ∈ fl :: G, Clear r a := by
  exact forall_mem_cons.mpr ⟨hc, fun a ha => hc.trans (hg.after a ha) hg.here.le⟩

variable [DecidableEq O]

lemma lockLoop_stops {R : Lock O} {pre post : List (Lock O)}
    (hpost : ∀ fl ∈ post.head?, R.owner ≠ fl.owner) (G : List (Lock O)) :
    ∀ {D Q L M : List (Lock O)} {w : Walk O}, Scan R pre D G Q L M w →
      Stopped R pre (D ++ G) post (lockLoop w (G ++ post)) := by
  induction G with
  | nil =>
    intro D Q L M w h
    rw [nil_append, lockLoop_post hpost h.owner]
    exact .clear (h.setRest post) rfl rfl (by simp)
  | cons fl G ih =>
    intro D Q L M w h
    have howner : w.request.owner = fl.owner := by rw [h.owner, h.group.owner fl (by simp)]
    rw [cons_append, append_cons]
    rcases lockLoop_cons howner (G ++ post) with ⟨w', hstep, heq⟩ | hhalt
    · rw [heq]
      cases hstep with
      | skip hc => exact ih (h.skip hc)
      | join hadd htype hend hstart =>
        exact ih (h.join hadd htype hend hstart rfl rfl)
      | merge hadd htype hstart => exact ih (h.merge hadd htype hstart rfl rfl)
      | erase hadd hstart hend => exact ih (h.erase (h.type ▸ hadd) hstart hend)
      | replace hadd hun hstart hend =>
        exact ih (h.replace hadd (h.type ▸ hun) hstart hend)
      | leave hne hstart hin hend => exact ih (h.leave hstart hin hend hne)
    · generalize lockLoop w (fl :: (G ++ post)) = w' at hhalt
      cases hhalt with
      | clear hc =>
        refine .clear (h.setRest _) ?_ rfl (clear_rest h.group hc)
        simp
      | right hne hstart hend => exact .right h (by simp) hne hstart hend

end BoardStack.Locks
