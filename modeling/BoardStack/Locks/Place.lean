/-
What is done after the walk: the request is inserted, and the locks at its sides
are trimmed; or it fails.

The new locks of the owner are always of one shape, `P ++ (piece ++ G)`: what ends
before the request, the request (unless bytes are unlocked), and what starts after
it. `Outcome.of_pieces` says when this is right; `finish_outcome` that it is what a
successful call leaves.

The walk edits the list in place, and only after it a spare lock may be found to
be missing. `Intact` is why this is in time: as long as nothing was added the list
is the same, and once something was added no lock to come starts before the
request, so none has to be broken in two.
-/
import BoardStack.Locks.Walk

namespace BoardStack.Locks

open List

variable {O : Type}
variable {b : Int} {R : Lock O} {w : Walk O}

/-- The locks `N` are what the locks `g` become by the request `R`. -/
structure Outcome (R : Lock O) (g N : List (Lock O)) : Prop where
  group : Group R.owner N
  map : ∀ b, typeAt N b =
    if R.start ≤ b ∧ b ≤ R.end_ then R.type.wanted else typeAt g b

/-- What there is to see of a request in the list. -/
def Lock.piece (r : Lock O) : List (Lock O) :=
  if r.type = .unlck then [] else [r]

lemma typeAt_piece {r : Lock O} (hb : r.start ≤ b ∧ b ≤ r.end_) :
    typeAt r.piece b = r.type.wanted := by
  unfold Lock.piece
  cases htype : r.type with
  | unlck => rfl
  | rdlck | wrlck => simp [typeAt_cons, hb, htype, LockType.wanted]

lemma Outcome.of_pieces {r : Lock O} {g P G : List (Lock O)}
    (hP : Group R.owner P) (hG : Group R.owner G) (hr : Valid r)
    (howner : r.owner = R.owner) (htype : r.type = R.type)
    (hstart : r.start ≤ R.start) (hend : R.end_ ≤ r.end_)
    (hPr : ∀ a ∈ P, Clear a r) (hrG : ∀ a ∈ G, Clear r a) (hmap : ∀ b, ¬(R.start ≤ b ∧ b ≤ R.end_) →
      (typeAt P b).or ((typeAt r.piece b).or (typeAt G b)) = typeAt g b) :
    Outcome R g (P ++ (r.piece ++ G)) := by
  have hpiece : ∀ a ∈ r.piece, a = r ∧ r.type ≠ .unlck := by
    intro a ha
    unfold Lock.piece at ha
    split at ha
    · cases ha
    · exact ⟨mem_singleton.mp ha, ‹_›⟩
  have hsub : (P ++ (r.piece ++ G)).Sublist (P ++ ([r] ++ G)) := by
    refine (Sublist.refl P).append (Sublist.append ?_ (Sublist.refl G))
    unfold Lock.piece
    split
    · exact nil_sublist _
    · exact Sublist.refl _
  refine ⟨⟨?_, ?_, ?_⟩, ?_⟩
  · refine forall_mem_append.mpr ⟨hP.held, forall_mem_append.mpr ⟨fun a ha => ?_, hG.held⟩⟩
    obtain ⟨rfl, hne⟩ := hpiece a ha
    exact ⟨hr, hne⟩
  · refine forall_mem_append.mpr ⟨hP.owner, forall_mem_append.mpr ⟨fun a ha => ?_, hG.owner⟩⟩
    rw [(hpiece a ha).1]
    exact howner
  · refine List.Pairwise.sublist hsub (pairwise_append.mpr ⟨hP.clear, ?_, ?_⟩)
    · exact pairwise_cons.mpr ⟨hrG, hG.clear⟩
    · intro a ha c hc
      rcases mem_cons.mp hc with rfl | hc
      · exact hPr a ha
      · exact (hPr a ha).trans (hrG c hc) hr.le
  · intro b
    rw [typeAt_append, typeAt_append]
    split
    · next hb =>
        have hP' : typeAt P b = none := by
          rw [typeAt_eq_none]
          intro a ha
          have h1 := (hPr a ha).1
          omega
        have hG' : typeAt G b = none := by
          rw [typeAt_eq_none]
          intro a ha
          have h1 := (hrG a ha).1
          omega
        rw [hP', hG', typeAt_piece ⟨by omega, by omega⟩, htype, Option.none_or, Option.or_none]
    · next hb => exact hmap b hb

-- == the sides

lemma modify_length {α : Type} (xs ys : List α) (x : α) (f : α → α) :
    (xs ++ x :: ys).modify xs.length f = xs ++ f x :: ys := by
  induction xs with
  | nil => rfl
  | cons y xs ih => simp [ih]

lemma Group.trimLast {o : O} {Q : List (Lock O)} {l : Lock O} {e : Int}
    (h : Group o (Q ++ [l])) (hle : l.start ≤ e) (he : e ≤ l.end_) :
    Group o (Q ++ [{ l with end_ := e }]) := by
  have hQ : Group o Q := h.sublist (sublist_append_left _ _)
  have hl := h.here
  refine ⟨?_, ?_, pairwise_append.mpr ⟨hQ.clear, pairwise_singleton _ _, ?_⟩⟩
  · exact forall_mem_append.mpr ⟨hQ.held, forall_mem_singleton.mpr
      ⟨⟨hl.nonneg, hle, Int.le_trans he hl.le_max⟩, hl.type_ne⟩⟩
  · exact forall_mem_append.mpr ⟨hQ.owner, forall_mem_singleton.mpr (h.owner l (by simp))⟩
  · intro a ha c hc
    rw [mem_singleton.mp hc]
    exact h.across a ha l (by simp)

lemma Group.trimFirst {o : O} {G : List (Lock O)} {fl : Lock O} {s : Int}
    (h : Group o (fl :: G)) (hs : fl.start ≤ s) (hle : s ≤ fl.end_) :
    Group o ({ fl with start := s } :: G) := by
  have hG : Group o G := h.sublist (sublist_cons_self _ _)
  have hfl := h.held fl (by simp)
  refine ⟨?_, ?_, pairwise_cons.mpr ⟨?_, hG.clear⟩⟩
  · exact forall_mem_cons.mpr
      ⟨⟨⟨Int.le_trans hfl.nonneg hs, hle, hfl.le_max⟩, hfl.type_ne⟩, hG.held⟩
  · exact forall_mem_cons.mpr ⟨h.owner fl (by simp), hG.owner⟩
  · exact (pairwise_cons.mp h.clear).1

namespace Scan

variable {R fl : Lock O} {pre D G Q L M : List (Lock O)} {w : Walk O}

section

variable (h : Scan R pre D G Q L M w)

include h

lemma group_kept : Group R.owner (Q ++ L) :=
  h.group.sublist (h.kept.trans (sublist_append_left _ _))

lemma group_rest : Group R.owner G := h.group.sublist (sublist_append_right _ _)

lemma trimmed :
    ∃ P, w.trimmed = pre ++ (P ++ M) ∧ Group R.owner P ∧ (∀ a ∈ P, Clear a w.request) ∧
      ∀ b, ¬(R.start ≤ b ∧ b ≤ R.end_) → typeAt P b = typeAt (Q ++ L) b := by
  rcases h.left with ⟨hL, hl⟩ | ⟨l, hL, hl, hne, hlt, hin, hout, hs, -⟩
  · refine ⟨Q, ?_, ?_, h.clear, ?_⟩
    · rw [Walk.trimmed, hl]
      simpa [hL] using h.passed
    · simpa [hL] using h.group_kept
    · intro b _
      rw [hL, append_nil]
  subst hL
  have hg := h.group_kept
  refine ⟨Q ++ [{ l with end_ := w.request.start - 1 }], ?_, ?_, ?_, ?_⟩
  · rw [Walk.trimmed, hl, h.passed]
    have hm := modify_length (pre ++ Q) M l fun left =>
      { left with end_ := w.request.start - 1 }
    simpa using hm
  · exact hg.trimLast (by omega) (by omega)
  · exact forall_mem_append.mpr ⟨h.clear, forall_mem_singleton.mpr
      ⟨Int.sub_one_lt_iff.mpr (Int.le_refl _), fun he => absurd (he.trans h.type) hne⟩⟩
  · intro b hb
    rw [typeAt_append, typeAt_append, typeAt_cons, typeAt_cons]
    have hiff : (l.start ≤ b ∧ b ≤ w.request.start - 1) ↔ (l.start ≤ b ∧ b ≤ l.end_) := by omega
    simp only [hiff]

/-- Together with what is inserted, the request is in the list, unless bytes are
unlocked. -/
lemma inserted {added : Bool} (htrue : added = true → w.added = true ∨ R.type = .unlck)
    (hfalse : added = false → w.added = false ∧ R.type ≠ .unlck) :
    M ++ (if added then [] else [w.request]) = w.request.piece := by
  unfold Lock.piece
  rw [h.type]
  cases hadd : added with
  | true =>
    rcases h.merged with ⟨hM, -, -, hun⟩ | ⟨hM, -, -, hne⟩
    · rw [hM, if_pos ((htrue hadd).elim hun id)]
      rfl
    · rw [hM, if_neg hne]
      rfl
  | false =>
    obtain ⟨hwadd, hne⟩ := hfalse hadd
    rw [(h.asked hwadd).2.2.1, if_neg hne]
    rfl

lemma typeAt_merged (hb : ¬(R.start ≤ b ∧ b ≤ R.end_)) : typeAt w.request.piece b = typeAt M b := by
  unfold Lock.piece
  rcases h.merged with ⟨hM, -, hreq, -⟩ | ⟨hM, -, -, hne⟩
  · rw [hM, hreq]
    split
    · rfl
    · rw [typeAt_cons, if_neg hb]
  · rw [hM, h.type, if_neg hne]

lemma typeAt_passed (hb : ¬(R.start ≤ b ∧ b ≤ R.end_)) :
    typeAt (D ++ G) b = (typeAt (Q ++ L) b).or ((typeAt w.request.piece b).or (typeAt G b)) := by
  rw [typeAt_append, h.map b hb, ← append_assoc, typeAt_append (Q ++ L),
    h.typeAt_merged hb, Option.or_assoc]

end

section

variable (h : Scan R pre D (fl :: G) Q L M w) (htype : w.request.type ≠ fl.type)
  (hstart : fl.start ≤ w.request.end_) (hend : w.request.end_ < fl.end_)
include h htype hstart hend

lemma beyond :
    w.request.end_ = R.end_ ∧ Group R.owner ({ fl with start := w.request.end_ + 1 } :: G) ∧
      ∀ a ∈ { fl with start := w.request.end_ + 1 } :: G, Clear w.request a := by
  refine ⟨h.end_eq fun hc => ?_, h.group_rest.trimFirst (by omega) (by omega), ?_⟩
  · have h1 := hc.1
    omega
  · refine forall_mem_cons.mpr ⟨⟨Int.lt_succ _, fun he => absurd he htype⟩, fun a ha => ?_⟩
    have h1 := (h.group.after a ha).1
    exact ⟨by omega, fun _ => by omega⟩

lemma outcome_split (hsplit : fl.start < w.request.start) :
    Outcome R (D ++ fl :: G) ((D ++ [{ fl with end_ := w.request.start - 1 }]) ++
      (w.request.piece ++ { fl with start := w.request.end_ + 1 } :: G)) := by
  obtain ⟨hRe, hG', hrG⟩ := h.beyond htype hstart hend
  have hlt : fl.start < R.start := by
    have h1 := h.start_le
    omega
  obtain ⟨-, -, -, hreq, hL, hM, hD⟩ := h.fresh hlt
  subst hL hM hD
  have hle := h.valid.le
  have hP : Group R.owner (D ++ [{ fl with end_ := w.request.start - 1 }]) := by
    refine Group.trimLast (h.group_next.sublist ?_) (by omega) (by omega)
    exact sublist_append_left _ _
  refine Outcome.of_pieces hP hG' h.valid h.owner h.type h.start_le h.le_end ?_ hrG ?_
  · exact forall_mem_append.mpr ⟨h.clear, forall_mem_singleton.mpr
      ⟨Int.sub_one_lt_iff.mpr (Int.le_refl _), fun he => absurd he.symm htype⟩⟩
  intro b hb
  rw [h.typeAt_merged hb, typeAt_append, typeAt_append, Option.or_assoc]
  congr 1
  simp only [typeAt_cons, typeAt_nil]
  rw [hreq] at hstart hend hsplit hle ⊢
  by_cases hlow : fl.start ≤ b ∧ b ≤ R.start - 1
  · have hin : fl.start ≤ b ∧ b ≤ fl.end_ := ⟨hlow.1, by omega⟩
    rw [if_pos hlow, if_pos hin]
    rfl
  · have hiff : (R.end_ + 1 ≤ b ∧ b ≤ fl.end_) ↔ (fl.start ≤ b ∧ b ≤ fl.end_) := by omega
    rw [if_neg hlow]
    simp only [hiff]
    rfl

lemma outcome_right (hsplit : ¬fl.start < w.request.start)
    {P : List (Lock O)} (hP : Group R.owner P) (hPr : ∀ a ∈ P, Clear a w.request)
    (hmapP : ∀ b, ¬(R.start ≤ b ∧ b ≤ R.end_) → typeAt P b = typeAt (Q ++ L) b) :
    Outcome R (D ++ fl :: G)
      (P ++ (w.request.piece ++ { fl with start := w.request.end_ + 1 } :: G)) := by
  obtain ⟨hRe, hG', hrG⟩ := h.beyond htype hstart hend
  have hRs : R.start ≤ fl.start := by
    by_cases hlt : fl.start < R.start
    · have hreq := (h.fresh hlt).2.2.2.1
      rw [hreq] at hsplit
      omega
    · omega
  refine Outcome.of_pieces hP hG' h.valid h.owner h.type h.start_le h.le_end hPr hrG ?_
  intro b hb
  rw [hmapP b hb, h.typeAt_passed hb, typeAt_cons, typeAt_cons]
  have hiff : (w.request.end_ + 1 ≤ b ∧ b ≤ fl.end_) ↔ (fl.start ≤ b ∧ b ≤ fl.end_) := by omega
  simp only [hiff]

end

lemma left_ne (h : Scan R pre D G Q L M w) : w.left ≠ some w.passed.length := by
  intro hl
  rcases h.left with ⟨-, hnone⟩ | ⟨l, hL, hsome, -⟩
  · rw [hnone] at hl
    cases hl
  · rw [hsome, h.passed, hL] at hl
    simp at hl

end Scan

-- == after the walk

variable {pre g post : List (Lock O)}

lemma Stopped.type (h : Stopped R pre g post w) : w.request.type = R.type := by
  cases h with
  | clear h | right h => exact h.type

lemma Stopped.placed (h : Stopped R pre g post w) (hun : w.added = false → R.type ≠ .unlck) :
    ∃ N, w.place (if w.added then [] else [w.request]) = pre ++ (N ++ post) ∧ Outcome R g N := by
  cases h with
  | clear h hg hrest hclear =>
    obtain ⟨P, htrim, hP, hPr, hmapP⟩ := h.trimmed
    refine ⟨P ++ (w.request.piece ++ _), ?_, Outcome.of_pieces hP h.group_rest
      h.valid h.owner h.type h.start_le h.le_end hPr hclear ?_⟩
    · rw [Walk.place, h.right, htrim, hrest, ← h.inserted .inl fun ha => ⟨ha, hun ha⟩]
      simp
    · intro b hb
      rw [hmapP b hb, ← hg, h.typeAt_passed hb]
  | @right D G Q L M fl w h hg htype hstart hend =>
    generalize hadded : (if w.request.type = .unlck then true else w.added) = added at hun ⊢
    have hins : M ++ (if added then [] else [w.request]) = w.request.piece := by
      refine h.inserted ?_ ?_
      · intro ha
        rw [ha] at hadded
        split at hadded
        · next hu => exact .inr (h.type ▸ hu)
        · exact .inl hadded
      intro ha
      refine ⟨?_, hun ha⟩
      rw [ha] at hadded
      split at hadded
      · cases hadded
      · exact hadded
    rw [← hg]
    by_cases hsplit : fl.start < w.request.start
    · refine ⟨_, ?_, h.outcome_split htype hstart hend hsplit⟩
      have hlt : fl.start < R.start := Int.lt_of_lt_of_le hsplit h.start_le
      obtain ⟨-, -, -, -, hL, hM, hD⟩ := h.fresh hlt
      rw [← hins, hD]
      simp [Walk.place, hsplit, h.passed, hL, hM]
    · obtain ⟨P, htrim, hP, hPr, hmapP⟩ := h.trimmed
      refine ⟨_, ?_, h.outcome_right htype hstart hend hsplit hP hPr hmapP⟩
      rw [Walk.trimmed] at htrim
      rw [← hins]
      simp [Walk.place, hsplit, h.left_ne, Walk.trimmed, htrim]

lemma Stopped.nothing
    (h : Stopped R pre g post w) (hadd : w.added = false) (hun : R.type = .unlck) :
    w.passed ++ w.rest = pre ++ (g ++ post) ∧ Outcome R g g := by
  cases h with
  | @clear D G Q L M w h hg hrest hclear =>
    obtain ⟨-, hreq, hM, hD⟩ := h.asked hadd
    have hL : L = [] := by
      rcases h.left with ⟨hL, -⟩ | ⟨l, -, -, -, -, -, -, -, ht⟩
      · exact hL
      · exact absurd (ht hun) (by simp [hadd])
    refine ⟨?_, hg ▸ h.group, ?_⟩
    · rw [h.passed, hrest, ← hg, hD, hM]
      simp
    intro b
    split
    · next hb =>
        rw [hun, LockType.wanted, typeAt_eq_none, ← hg, hD, hL, append_nil]
        intro a ha
        rcases mem_append.mp ha with ha | ha
        · have h1 := (h.clear a ha).1
          rw [hreq] at h1
          omega
        · have h1 := (hclear a ha).1
          rw [hreq] at h1
          omega
    · rfl
  | @right D G Q L M fl w h hg htype hstart hend =>
    rw [h.type, hun] at hadd
    cases hadd

lemma finish_outcome (h : Stopped R pre g post w) (flags : Flags) (newFl newFl2 : Bool)
    (hzero : (finish flags newFl newFl2 w).1 = 0) :
    ∃ N, (finish flags newFl newFl2 w).2 = pre ++ (N ++ post) ∧ Outcome R g N := by
  have htype := h.type
  unfold finish at hzero ⊢
  split at hzero
  · exact absurd (show -enolck = 0 from hzero) (by decide)
  next hluck =>
    rw [if_neg hluck]
    cases hadd : w.added with
    | true =>
      have hp := h.placed fun ht => absurd hadd (by simp [ht])
      rw [hadd] at hp
      exact hp
    | false =>
      rw [hadd] at hzero
      by_cases hun : w.request.type = .unlck
      · obtain ⟨hlist, hout⟩ := h.nothing hadd (htype ▸ hun)
        refine ⟨g, ?_, hout⟩
        rw [if_neg (by simp), if_pos hun]
        exact hlist
      have hp := h.placed fun _ => htype ▸ hun
      rw [hadd] at hp
      cases hnew : newFl with
      | false =>
        rw [if_neg (by simp), if_neg hun, hnew] at hzero
        exact absurd (show -enolck = 0 from hzero) (by decide)
      | true =>
        rw [if_neg (by simp), if_neg hun, if_neg (by simp)]
        exact hp

variable {O : Type}

/-- The walk has changed nothing yet, or the locks to come start behind the
start of the request. -/
structure Intact (orig post G : List (Lock O)) (w : Walk O) : Prop where
  group : Group w.request.owner G
  same : w.added = false → w.passed ++ (G ++ post) = orig
  behind : w.added = true → ∀ a ∈ G, w.request.start ≤ a.start
  left : ∀ i ∈ w.left, i < w.passed.length
  right : w.right = false

/-- The list is the same if nothing was added, or if the last lock seen is to be
broken in two. -/
def Kept (orig : List (Lock O)) (w : Walk O) : Prop :=
  w.added = false ∨ (w.right = true ∧ w.left = some w.passed.length) → w.passed ++ w.rest = orig

namespace Intact

variable {fl : Lock O} {orig post G : List (Lock O)} {w : Walk O}

lemma group_tail {o : O} (h : Group o (fl :: G)) : Group o G := h.sublist (sublist_cons_self _ _)

lemma lt_tail {o : O} (h : Group o (fl :: G)) : ∀ a ∈ G, fl.end_ < a.start := by
  intro a ha
  exact ((pairwise_cons.mp h.clear).1 a ha).1

lemma left_ne (h : Intact orig post G w) : w.left ≠ some w.passed.length := by
  intro hl
  exact Nat.lt_irrefl _ (h.left _ hl)

lemma stop (h : Intact orig post G w) : Kept orig { w with rest := G ++ post } := by
  intro hk
  rcases hk with hadd | ⟨-, hl⟩
  · exact h.same hadd
  · exact absurd hl h.left_ne

section

variable (h : Intact orig post (fl :: G) w)

include h

lemma stopRight :
    Kept orig { w with
      added := if w.request.type = .unlck then true else w.added
      left := if fl.start < w.request.start then some w.passed.length else w.left
      right := true
      rest := fl :: (G ++ post) } := by
  intro hk
  refine h.same ?_
  rcases hk with hadd | ⟨-, hl⟩
  · dsimp only at hadd
    split at hadd
    · cases hadd
    · exact hadd
  split at hl
  · next hlt =>
      cases hadd : w.added with
      | false => rfl
      | true =>
        have h1 := h.behind hadd fl (by simp)
        omega
  · exact absurd hl h.left_ne

lemma next : Intact orig post G (w.next fl) := by
  refine ⟨group_tail h.group, ?_, ?_, ?_, h.right⟩
  · intro hadd
    rw [← h.same hadd]
    simp [Walk.next]
  · intro hadd a ha
    exact h.behind hadd a (mem_cons_of_mem _ ha)
  · intro i hi
    have h1 := h.left i hi
    simp only [Walk.next, length_append, length_singleton]
    omega

lemma become {r : Lock O} (howner : r.owner = fl.owner) (hstart : r.start ≤ fl.start) :
    Intact orig post G (w.become r) := by
  have hle := (h.group.held fl (by simp)).le
  refine ⟨?_, ?_, ?_, ?_, h.right⟩
  · show Group r.owner G
    rw [howner, h.group.owner fl (by simp)]
    exact group_tail h.group
  · intro hadd
    cases hadd
  · intro _ a ha
    have h1 := lt_tail h.group a ha
    show r.start ≤ a.start
    omega
  · intro i hi
    have h1 := h.left i hi
    simp only [Walk.become, length_append, length_singleton]
    omega

lemma setRequest (hadd : w.added = true) {start : Int} (hstart : start ≤ fl.start) (end_ : Int) :
    Intact orig post G (w.setRequest start end_) := by
  have hle := (h.group.held fl (by simp)).le
  refine ⟨group_tail h.group, ?_, ?_, ?_, h.right⟩
  · intro ht
    exact absurd hadd (by simp [show w.added = false from ht])
  · intro _ a ha
    have h1 := lt_tail h.group a ha
    show start ≤ a.start
    omega
  intro i hi
  have h1 := h.left i hi
  unfold Walk.setRequest
  cases w.pos with
  | none => exact h1
  | some j => simpa using h1

lemma erase (hstart : w.request.start ≤ fl.start) :
    Intact orig post G { w with added := true } := by
  have hle := (h.group.held fl (by simp)).le
  refine ⟨group_tail h.group, ?_, ?_, h.left, h.right⟩
  · intro ht
    cases ht
  · intro _ a ha
    have h1 := lt_tail h.group a ha
    show w.request.start ≤ a.start
    omega

lemma leave (hin : w.request.start ≤ fl.end_) :
    Intact orig post G (Walk.next { w with
      added := if w.request.type = .unlck then true else w.added
      left := some w.passed.length } fl) := by
  refine ⟨group_tail h.group, ?_, ?_, ?_, h.right⟩
  · intro hadd
    have hw : w.added = false := by
      split at hadd
      · cases hadd
      · exact hadd
    rw [← h.same hw]
    simp [Walk.next]
  · intro _ a ha
    have h1 := lt_tail h.group a ha
    show w.request.start ≤ a.start
    omega
  · intro i hi
    have hi : w.passed.length = i := by simpa [Walk.next] using hi
    simp only [Walk.next, length_append, length_singleton]
    omega

end

end Intact

lemma finish_failed {orig : List (Lock O)} {w : Walk O} (h : Kept orig w)
    {flags : Flags} {newFl newFl2 : Bool} (hne : (finish flags newFl newFl2 w).1 ≠ 0) :
    (finish flags newFl newFl2 w).2 = orig := by
  unfold finish at hne ⊢
  split at hne
  · next hluck =>
      rw [if_pos hluck]
      exact h (.inr ⟨hluck.1, hluck.2.1⟩)
  next hluck =>
    rw [if_neg hluck]
    cases hadd : w.added with
    | true =>
      rw [hadd] at hne
      exact absurd rfl hne
    | false =>
      have hsame := h (.inl hadd)
      rw [hadd] at hne
      rw [if_neg (by simp)] at hne ⊢
      split
      · exact hsame
      next hun =>
        rw [if_neg hun] at hne
        split at hne
        · next hnew =>
            rw [if_pos hnew]
            exact hsame
        · exact absurd rfl hne

variable [DecidableEq O]

lemma lockLoop_kept {orig post : List (Lock O)} {o : O}
    (hpost : ∀ fl ∈ post.head?, o ≠ fl.owner) (G : List (Lock O)) :
    ∀ {w : Walk O}, w.request.owner = o → Intact orig post G w →
      Kept orig (lockLoop w (G ++ post)) := by
  induction G with
  | nil =>
    intro w ho h
    rw [nil_append, lockLoop_post hpost ho]
    exact h.stop
  | cons fl G ih =>
    intro w ho h
    have hfl := h.group.owner fl (by simp)
    rw [cons_append]
    rcases lockLoop_cons hfl.symm (G ++ post) with ⟨w', hstep, heq⟩ | hhalt
    · rw [heq]
      have hmin : (if fl.start > w.request.start then w.request.start
          else fl.start) ≤ fl.start := by
        split <;> omega
      cases hstep with
      | skip => exact ih ho h.next
      | join => exact ih (hfl.trans ho) (h.become rfl hmin)
      | merge hadd => exact ih ho (h.setRequest hadd hmin _)
      | erase _ hstart => exact ih ho (h.erase hstart)
      | replace _ _ hstart =>
        refine ih ?_ (h.become ?_ ?_)
        · exact hfl.trans ho
        · rfl
        · exact hstart
      | leave _ _ hin => exact ih ho (h.leave hin)
    · generalize lockLoop w (fl :: (G ++ post)) = w' at hhalt
      cases hhalt with
      | clear => exact h.stop
      | right => exact h.stopRight

end BoardStack.Locks
