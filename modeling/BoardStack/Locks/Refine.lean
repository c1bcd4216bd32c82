/-
The lock list stands for a map from owners and bytes to lock types.

`Inv` is what every list that requests lead to satisfies. A request that succeeds
exchanges the locks of its owner for others (`Inv.exchange`) and changes the map
as it asks for; a request that fails leaves the list as it was.
-/
import Mathlib.Data.List.TakeWhile
import BoardStack.Locks.Place

namespace BoardStack.Locks

open List

variable {O : Type} [DecidableEq O]

/-- The locks of each owner stand together, sorted, disjoint and merged, and
different owners share read locks only. -/
structure Inv (locks : List (Lock O)) : Prop where
  held : ∀ a ∈ locks, Held a
  together : ∀ x y z, [x, y, z].Sublist locks → x.owner = z.owner → y.owner = x.owner
  clear : ∀ o, (locks.filter fun l => l.owner = o).Pairwise Clear
  shared : ∀ a ∈ locks, ∀ b ∈ locks, a.owner ≠ b.owner →
    locksOverlap a b = true → a.type = .rdlck ∧ b.type = .rdlck

lemma Inv.empty : Inv ([] : List (Lock O)) := ⟨by simp, by simp, by simp, by simp⟩

variable {locks : List (Lock O)}

lemma Inv.group (h : Inv locks) (o : O) : Group o (locks.filter fun l => l.owner = o) :=
  ⟨fun a ha => h.held a (mem_of_mem_filter ha),
    fun a ha => by simpa using (mem_filter.mp ha).2, h.clear o⟩

-- == the parts

/-- The list, with the locks `g` of the owner in their place. -/
structure Parts (o : O) (pre g post locks : List (Lock O)) : Prop where
  eq : locks = pre ++ (g ++ post)
  before : ∀ a ∈ pre, a.owner ≠ o
  own : ∀ a ∈ g, a.owner = o
  after : ∀ a ∈ post, a.owner ≠ o
  last : g = [] → post = []

namespace Parts

variable {o : O} {pre g post locks : List (Lock O)}

lemma filter_self (hpre : ∀ a ∈ pre, a.owner ≠ o) (hg : ∀ a ∈ g, a.owner = o)
    (hpost : ∀ a ∈ post, a.owner ≠ o) :
    (pre ++ (g ++ post)).filter (fun l => l.owner = o) = g := by
  have h1 : pre.filter (fun l => l.owner = o) = [] := by simpa [filter_eq_nil_iff] using hpre
  have h2 : g.filter (fun l => l.owner = o) = g := by simpa [filter_eq_self] using hg
  have h3 : post.filter (fun l => l.owner = o) = [] := by simpa [filter_eq_nil_iff] using hpost
  rw [filter_append, filter_append, h1, h2, h3, nil_append, append_nil]

lemma filter_other {o' : O} (hg : ∀ a ∈ g, a.owner = o) (hne : o' ≠ o) :
    (pre ++ (g ++ post)).filter (fun l => l.owner = o') =
      pre.filter (fun l => l.owner = o') ++ post.filter fun l => l.owner = o' := by
  have h1 : g.filter (fun l => l.owner = o') = [] := by
    rw [filter_eq_nil_iff]
    intro a ha
    simpa [hg a ha] using hne.symm
  rw [filter_append, filter_append, h1, nil_append]

omit [DecidableEq O] in
lemma head_ne (hp : Parts o pre g post locks) : ∀ fl ∈ post.head?, o ≠ fl.owner := by
  intro fl hfl
  exact (hp.after fl (mem_of_head? hfl)).symm

end Parts

lemma Inv.group_parts {o : O} {pre g post locks : List (Lock O)} (h : Inv locks)
    (hp : Parts o pre g post locks) : Group o g := by
  have hg := h.group o
  rwa [hp.eq, Parts.filter_self hp.before hp.own hp.after] at hg

lemma Inv.parts (h : Inv locks) (o : O) :
    ∃ g post, locks.dropWhile (fun fl => o ≠ fl.owner) = g ++ post ∧
      Parts o (locks.takeWhile fun fl => o ≠ fl.owner) g post locks := by
  generalize hd : locks.dropWhile (fun fl => o ≠ fl.owner) = d
  have heq : locks = locks.takeWhile (fun fl => o ≠ fl.owner) ++ d := by
    rw [← hd, takeWhile_append_dropWhile]
  have hsub : d.Sublist locks := hd ▸ dropWhile_sublist _
  refine ⟨d.takeWhile fun fl => fl.owner = o, d.dropWhile fun fl => fl.owner = o,
    (takeWhile_append_dropWhile).symm, ?_, ?_, ?_, ?_, ?_⟩
  · rw [takeWhile_append_dropWhile]
    exact heq
  · intro a ha
    have h1 : o ≠ a.owner := by simpa using mem_takeWhile_imp ha
    exact h1.symm
  · intro a ha
    simpa using mem_takeWhile_imp ha
  · have hhead := head?_dropWhile_not (fun fl : Lock O => o ≠ fl.owner) locks
    rw [hd] at hhead
    intro z hz ho
    cases d with
    | nil => simp at hz
    | cons x d =>
      have hx : o = x.owner := by simpa using hhead
      rw [dropWhile_cons_of_pos (by simp [hx])] at hz
      have hnext := head?_dropWhile_not (fun fl : Lock O => fl.owner = o) d
      have hsub' := dropWhile_sublist (l := d) fun fl => fl.owner = o
      generalize d.dropWhile (fun fl => fl.owner = o) = post at hz hnext hsub'
      cases post with
      | nil => simp at hz
      | cons y ys =>
        have hy : y.owner ≠ o := by simpa using hnext
        rcases mem_cons.mp hz with rfl | hz
        · exact hy ho
        have htriple : [x, y, z].Sublist locks :=
          (((singleton_sublist.mpr hz).cons_cons y).trans hsub'
            |>.cons_cons x).trans hsub
        have hxz : x.owner = z.owner := hx.symm.trans ho.symm
        exact hy ((h.together x y z htriple hxz).trans hx.symm)
  · intro hg
    have hhead := head?_dropWhile_not (fun fl : Lock O => o ≠ fl.owner) locks
    rw [hd] at hhead
    cases d with
    | nil => rfl
    | cons x d =>
      have hx : o = x.owner := by simpa using hhead
      rw [takeWhile_cons_of_pos (by simp [hx])] at hg
      cases hg

-- == the exchange

section

variable {α : Type} {x y z : α} {a b l : List α}

lemma sublist_of_head_not_mem (h : (x :: l).Sublist (a ++ b)) (hx : x ∉ a) :
    (x :: l).Sublist b := by
  obtain ⟨l1, l2, heq, h1, h2⟩ := sublist_append_iff.mp h
  cases l1 with
  | nil => exact heq ▸ h2
  | cons x' l1 =>
    obtain ⟨rfl, -⟩ := cons.inj heq
    exact absurd (h1.subset (by simp)) hx

lemma last_mem_of_not_mem (h : [x, y, z].Sublist (a ++ b)) (hy : y ∉ a) : z ∈ b := by
  obtain ⟨l1, l2, heq, h1, h2⟩ := sublist_append_iff.mp h
  match l1, heq with
  | [], heq => exact h2.subset (by simp [← show [x, y, z] = l2 from heq])
  | [_], heq =>
    exact h2.subset (by simp [← show [y, z] = l2 from (cons.inj heq).2])
  | _ :: y' :: _, heq =>
    obtain ⟨rfl, -⟩ := cons.inj (cons.inj heq).2
    exact absurd (h1.subset (by simp)) hy

lemma head_mem_of_not_mem (h : [x, y, z].Sublist (a ++ b)) (hy : y ∉ b) : x ∈ a := by
  obtain ⟨l1, l2, heq, h1, h2⟩ := sublist_append_iff.mp h
  match l1, heq with
  | [], heq =>
    exact absurd (h2.subset (by simp [← show [x, y, z] = l2 from heq])) hy
  | x' :: _, heq =>
    obtain ⟨rfl, -⟩ := cons.inj heq
    exact h1.subset (by simp)

end

namespace Inv

variable {R : Lock O} {pre g N post locks : List (Lock O)}

variable (h : Inv locks) (hp : Parts R.owner pre g post locks)
include h hp

lemma exchange_together (hN : ∀ a ∈ N, a.owner = R.owner) (x y z : Lock O)
    (hs : [x, y, z].Sublist (pre ++ (N ++ post))) (hxz : x.owner = z.owner) :
    y.owner = x.owner := by
  by_cases hx : x.owner = R.owner
  · -- all three are locks of the owner of the request
    have hs := sublist_of_head_not_mem hs fun hm => hp.before x hm hx
    by_cases hy : y ∈ N
    · rw [hN y hy, hx]
    · have hz := last_mem_of_not_mem hs hy
      exact absurd (hxz.symm.trans hx) (hp.after z hz)
  have hz : z.owner ≠ R.owner := hxz ▸ hx
  by_cases hy : y.owner = R.owner
  · -- the first stands before the owner's locks and the last behind them
    have hzpost : z ∈ post := by
      have h1 := last_mem_of_not_mem hs fun hm => hp.before y hm hy
      rcases mem_append.mp h1 with h1 | h1
      · exact absurd (hN z h1) hz
      · exact h1
    have hxpre : x ∈ pre := by
      rw [← append_assoc] at hs
      have h1 := head_mem_of_not_mem hs fun hm => hp.after y hm hy
      rcases mem_append.mp h1 with h1 | h1
      · exact h1
      · exact absurd (hN x h1) hx
    obtain ⟨c, hc⟩ : ∃ c, c ∈ g := by
      refine exists_mem_of_ne_nil g fun hg => ?_
      simp [hp.last hg] at hzpost
    have hold : [x, c, z].Sublist locks := by
      rw [hp.eq]
      exact (singleton_sublist.mpr hxpre).append
        ((singleton_sublist.mpr hc).append (singleton_sublist.mpr hzpost))
    exact absurd ((h.together x c z hold hxz).symm.trans (hp.own c hc)) hx
  · refine h.together x y z ?_ hxz
    have hf := hs.filter fun l => l.owner ≠ R.owner
    have h1 : N.filter (fun l => l.owner ≠ R.owner) = [] := by simpa [filter_eq_nil_iff] using hN
    rw [filter_append, filter_append, h1, nil_append] at hf
    have h2 : [x, y, z].filter (fun l => l.owner ≠ R.owner) = [x, y, z] := by simp [hx, hy, hz]
    rw [h2] at hf
    rw [hp.eq]
    refine hf.trans (filter_sublist.append ?_)
    exact filter_sublist.trans (sublist_append_right _ _)

lemma exchange_shared (hN : Outcome R g N)
    (hfree : R.type ≠ .unlck → ∀ a ∈ locks, posixLocksConflict R a = false)
    {a b : Lock O} (ha : a ∈ N) (hb : b ∈ locks) (hne : R.owner ≠ b.owner)
    (hover : locksOverlap a b = true) : a.type = .rdlck ∧ b.type = .rdlck := by
  have hheld := hN.group.held a ha
  have hbheld := h.held b hb
  obtain ⟨x, hxa, hxb⟩ := (locksOverlap_iff hheld.le hbheld.le).mp hover
  have hat := hN.map x
  rw [typeAt_of_mem hN.group ha hxa] at hat
  split at hat
  · next hx =>
      have htype : R.type = a.type := by
        cases hR : R.type with
        | unlck => simp [hR, LockType.wanted] at hat
        | rdlck | wrlck => simpa [hR, LockType.wanted] using hat.symm
      have hun := hheld.type_ne
      have hfree := hfree (htype ▸ hun) b hb
      have hRb : locksOverlap R b = true := by
        simp only [locksOverlap, Bool.and_eq_true, decide_eq_true_eq]
        omega
      rw [posixLocksConflict, if_neg hne, hRb, locksConflict, htype] at hfree
      have hbun := hbheld.type_ne
      revert hfree hun hbun
      cases a.type <;> cases b.type <;> simp
  · next hx =>
      obtain ⟨c, hc, hcx, hct⟩ := exists_of_typeAt hat.symm
      have hcl : c ∈ locks := by
        rw [hp.eq]
        simp [hc]
      have hcheld := h.held c hcl
      rw [← hct]
      refine h.shared c hcl b hb (hp.own c hc ▸ hne) ?_
      exact (locksOverlap_iff hcheld.le hbheld.le).mpr ⟨x, hcx, hxb⟩

lemma exchange (hN : Outcome R g N)
    (hfree : R.type ≠ .unlck → ∀ a ∈ locks, posixLocksConflict R a = false) :
    Inv (pre ++ (N ++ post)) := by
  have hown := hN.group.owner
  have hmem : ∀ a ∈ pre ++ (N ++ post), a ∈ N ∨ a ∈ locks := by
    intro a ha
    rw [hp.eq]
    simp only [mem_append] at ha ⊢
    tauto
  have hlocks : ∀ a ∈ pre ++ (N ++ post), a.owner ≠ R.owner → a ∈ locks := by
    intro a ha hne
    rcases hmem a ha with hm | hm
    · exact absurd (hown a hm) hne
    · exact hm
  refine ⟨?_, h.exchange_together hp hown, ?_, ?_⟩
  · intro a ha
    exact (hmem a ha).elim (hN.group.held a) (h.held a)
  · intro o
    by_cases ho : o = R.owner
    · subst ho
      rw [Parts.filter_self hp.before hown hp.after]
      exact hN.group.clear
    · have hold := h.clear o
      rw [hp.eq, Parts.filter_other hp.own ho] at hold
      rw [Parts.filter_other hown ho]
      exact hold
  · intro a ha b hb hne hover
    by_cases hao : a.owner = R.owner
    · have hbl := hlocks b hb fun hbo => hne (hao.trans hbo.symm)
      rcases hmem a ha with hm | hm
      · exact h.exchange_shared hp hN hfree hm hbl (hao ▸ hne) hover
      · exact h.shared a hm b hbl hne hover
    have hal := hlocks a ha hao
    rcases hmem b hb with hm | hm
    · have hover' : locksOverlap b a = true := by simpa [locksOverlap, and_comm] using hover
      have hr := h.exchange_shared hp hN hfree hm hal (fun he => hao he.symm) hover'
      exact hr.symm
    · exact h.shared a hal b hm hne hover

end Inv

-- == the calls

section

variable {locks : List (Lock O)} {waits : List (O × O)} {flags : Flags}
  {mem mem2 : Bool} {request : Lock O}

lemma Inv.intact (h : Inv locks) (request : Lock O) : Kept locks (walkLocks locks request) := by
  obtain ⟨g, post, hdrop, hp⟩ := h.parts request.owner
  rw [walkLocks, hdrop]
  refine lockLoop_kept hp.head_ne g rfl ⟨h.group_parts hp, ?_, ?_, ?_, rfl⟩
  · intro _
    exact hp.eq.symm
  · intro ht
    cases ht
  · intro i hi
    cases hi

lemma Inv.stopped (h : Inv locks) (hv : Valid request) :
    ∃ pre g post, Parts request.owner pre g post locks ∧
      Stopped request pre g post (walkLocks locks request) := by
  obtain ⟨g, post, hdrop, hp⟩ := h.parts request.owner
  refine ⟨_, g, post, hp, ?_⟩
  rw [walkLocks, hdrop]
  refine lockLoop_stops (D := []) (Q := []) (L := []) (M := []) hp.head_ne g ?_
  refine ⟨h.group_parts hp, by simp, rfl, rfl, hv, Int.le_refl _, Int.le_refl _, by simp,
    .inl ⟨rfl, rfl⟩, .inl ⟨rfl, rfl, rfl, by simp⟩, List.Sublist.refl _, .inl rfl,
    by simp, fun _ => rfl, fun _ _ => rfl, rfl⟩

lemma posixLockFile_cases (waits : List (O × O)) (flags : Flags) (mem mem2 : Bool)
    (locks : List (Lock O)) (request : Lock O) :
    (∃ e, e ≠ 0 ∧ posixLockFile waits flags mem mem2 locks request = (e, locks)) ∨
      (flags.access = true ∧ posixLockFile waits flags mem mem2 locks request = (0, locks)) ∨
      (request.type ≠ .unlck → ∀ a ∈ locks, posixLocksConflict request a = false) ∧
        ∃ newFl newFl2, posixLockFile waits flags mem mem2 locks request =
          finish flags newFl newFl2 (walkLocks locks request) := by
  unfold posixLockFile
  generalize hconf : (if request.type ≠ .unlck then
    locks.find? (posixLocksConflict request) else none) = conflict
  cases conflict with
  | some fl =>
    refine .inl ?_
    dsimp only
    split
    · exact ⟨-eagain, by decide, rfl⟩
    · split
      · exact ⟨-edeadlk, by decide, rfl⟩
      · exact ⟨deferred, by decide, rfl⟩
  | none =>
    refine .inr ?_
    dsimp only
    split
    · next hacc => exact .inl ⟨hacc, rfl⟩
    · refine .inr ⟨?_, _, _, rfl⟩
      intro hun a ha
      rw [if_pos hun] at hconf
      simpa using find?_eq_none.mp hconf a ha

lemma posixLockFile_failed (h : Inv locks)
    (hne : (posixLockFile waits flags mem mem2 locks request).1 ≠ 0) :
    (posixLockFile waits flags mem mem2 locks request).2 = locks := by
  rcases posixLockFile_cases waits flags mem mem2 locks request with
    ⟨e, -, heq⟩ | ⟨-, heq⟩ | ⟨-, newFl, newFl2, heq⟩
  · rw [heq]
  · rw [heq]
  · rw [heq] at hne ⊢
    exact finish_failed (h.intact request) hne

lemma posixLockFile_succeeded (h : Inv locks) (hv : Valid request) (hacc : flags.access = false)
    (hzero : (posixLockFile waits flags mem mem2 locks request).1 = 0) :
    ∃ pre g N post, Parts request.owner pre g post locks ∧
      (posixLockFile waits flags mem mem2 locks request).2 = pre ++ (N ++ post) ∧
      Outcome request g N ∧
      (request.type ≠ .unlck → ∀ a ∈ locks, posixLocksConflict request a = false) := by
  rcases posixLockFile_cases waits flags mem mem2 locks request with
    ⟨e, hne, heq⟩ | ⟨hacc', -⟩ | ⟨hfree, newFl, newFl2, heq⟩
  · rw [heq] at hzero
    exact absurd hzero hne
  · exact absurd hacc (by simp [hacc'])
  · rw [heq] at hzero ⊢
    obtain ⟨pre, g, post, hp, hstop⟩ := h.stopped hv
    obtain ⟨N, hN, hout⟩ := finish_outcome hstop flags newFl newFl2 hzero
    exact ⟨pre, g, N, post, hp, hN, hout, hfree⟩

lemma posixLockFile_access (hacc : flags.access = true) :
    (posixLockFile waits flags mem mem2 locks request).2 = locks := by
  unfold posixLockFile
  dsimp only
  split
  · split
    · rfl
    · split <;> rfl
  · rw [if_pos hacc]

lemma Reached.inv (h : Reached locks) : Inv locks := by
  induction h with
  | empty => exact Inv.empty
  | @call locks waits flags mem mem2 request _ hv ih =>
    by_cases hzero : (posixLockFile waits flags mem mem2 locks request).1 = 0
    · cases hacc : flags.access with
      | false =>
        obtain ⟨pre, g, N, post, hp, heq, hout, hfree⟩ := posixLockFile_succeeded ih hv hacc hzero
        rw [heq]
        exact ih.exchange hp hout hfree
      | true =>
        rw [posixLockFile_access hacc]
        exact ih
    · rw [posixLockFile_failed ih hzero]
      exact ih

lemma Parts.lockAt_exchange {pre g N post : List (Lock O)}
    (hp : Parts request.owner pre g post locks) (hN : Outcome request g N) (o : O) (b : Int) :
    lockAt (pre ++ (N ++ post)) o b =
      if o = request.owner ∧ request.start ≤ b ∧ b ≤ request.end_ then
        request.type.wanted
      else lockAt locks o b := by
  unfold lockAt
  by_cases ho : o = request.owner
  · subst ho
    rw [hp.eq, Parts.filter_self hp.before hN.group.owner hp.after,
      Parts.filter_self hp.before hp.own hp.after, hN.map b]
    simp
  · rw [if_neg fun hand => ho hand.1, hp.eq, Parts.filter_other hN.group.owner ho,
      Parts.filter_other hp.own ho]

end

-- == the results

/-- POSIX locks refine a map from owners and bytes to lock types. -/
theorem posix_locks_refine_map {locks : List (Lock O)} (h : Reached locks) :
    (∀ a ∈ locks, a.type ≠ .unlck) ∧
      -- the locks of each owner stand together
      (∀ x y z, [x, y, z].Sublist locks → x.owner = z.owner → y.owner = x.owner) ∧
      -- sorted by start, disjoint, and merged if they are of the same type
      (∀ o, (locks.filter fun l => l.owner = o).Pairwise fun a b =>
        a.start < b.start ∧ a.end_ < b.start ∧ (a.type = b.type → a.end_ + 1 < b.start)) ∧
      -- different owners share read locks only
      (∀ a ∈ locks, ∀ b ∈ locks, a.owner ≠ b.owner → locksOverlap a b = true →
        a.type = .rdlck ∧ b.type = .rdlck) ∧
      -- a call that succeeds gives its owner what it asks for, and nothing else
      ∀ (waits : List (O × O)) (flags : Flags) (mem mem2 : Bool) (request : Lock O),
        0 ≤ request.start → request.start ≤ request.end_ →
        request.end_ ≤ offsetMax → flags.access = false →
        (posixLockFile waits flags mem mem2 locks request).1 = 0 →
        ∀ o b, lockAt (posixLockFile waits flags mem mem2 locks request).2 o b =
          if o = request.owner ∧ request.start ≤ b ∧ b ≤ request.end_ then
            request.type.wanted
          else lockAt locks o b := by
  have hinv := h.inv
  refine ⟨fun a ha => (hinv.held a ha).type_ne, hinv.together, ?_, hinv.shared, ?_⟩
  · intro o
    refine (hinv.clear o).imp_of_mem fun {a b} ha _ hc => ?_
    have hle := ((hinv.group o).held a ha).le
    exact ⟨Int.lt_of_le_of_lt hle hc.1, hc⟩
  · intro waits flags mem mem2 request h1 h2 h3 hacc hzero o b
    obtain ⟨pre, g, N, post, hp, heq, hout, -⟩ :=
      posixLockFile_succeeded hinv ⟨h1, h2, h3⟩ hacc hzero
    rw [heq]
    exact hp.lockAt_exchange hout o b

/-- A write lock that is broken in two by a read lock. -/
theorem brokenLock_refines :
    let flags : Flags := ⟨false, false, false⟩
    let locks := (posixLockFile [] flags true true [] ⟨0, .wrlck, 0, offsetMax⟩).2
    posixLockFile [] flags true true locks ⟨0, .rdlck, 10, 19⟩ =
        (0, [⟨0, .wrlck, 0, 9⟩, ⟨0, .rdlck, 10, 19⟩, ⟨0, .wrlck, 20, offsetMax⟩]) ∧
      ∀ o b, lockAt (posixLockFile [] flags true true locks ⟨0, .rdlck, 10, 19⟩).2 o b =
        if o = 0 ∧ 10 ≤ b ∧ b ≤ 19 then some .rdlck else lockAt locks o b :=
  ⟨by decide, (posix_locks_refine_map (.call [] ⟨false, false, false⟩ true true
    ⟨0, .wrlck, 0, offsetMax⟩ .empty ⟨by decide, by decide, by decide⟩)).2.2.2.2 []
    ⟨false, false, false⟩ true true ⟨0, .rdlck, 10, 19⟩ (by decide) (by decide)
    (by decide) rfl (by decide)⟩

/-- A call that is refused changes no lock on any byte, whether or not there was
memory for the spare locks. -/
theorem refused_request_changes_nothing {locks : List (Lock O)} (h : Reached locks)
    (waits : List (O × O)) (flags : Flags) (mem mem2 : Bool) (request : Lock O)
    (herr : (posixLockFile waits flags mem mem2 locks request).1 ∈
      [-eagain, -edeadlk, -enolck, deferred]) (o : O) (b : Int) :
    lockAt (posixLockFile waits flags mem mem2 locks request).2 o b = lockAt locks o b := by
  have hne : (posixLockFile waits flags mem mem2 locks request).1 ≠ 0 := by
    intro hzero
    rw [hzero] at herr
    revert herr
    decide
  rw [posixLockFile_failed h.inv hne]

/-- Without memory for the second spare lock, a lock is not broken in two. -/
theorem noMemory_changes_nothing :
    let flags : Flags := ⟨false, false, false⟩
    let locks := (posixLockFile [] flags true true [] ⟨0, .wrlck, 0, offsetMax⟩).2
    (posixLockFile [] flags true false locks ⟨0, .rdlck, 10, 19⟩).1 = -enolck ∧
      ∀ o b, lockAt (posixLockFile [] flags true false locks ⟨0, .rdlck, 10, 19⟩).2
        o b = lockAt locks o b :=
  ⟨by decide, refused_request_changes_nothing (.call [] ⟨false, false, false⟩ true
    true ⟨0, .wrlck, 0, offsetMax⟩ .empty ⟨by decide, by decide, by decide⟩) []
    ⟨false, false, false⟩ true false ⟨0, .rdlck, 10, 19⟩ (by decide)⟩

-- == deadlock

def WaitsFor (waits : List (O × O)) : Nat → O → O → Prop
  | 0, a, b => a = b
  | n + 1, a, c => ∃ b, (a, b) ∈ waits ∧ WaitsFor waits n b c

variable {waits : List (O × O)}

def OneWait (waits : List (O × O)) : Prop := ∀ a b c, (a, b) ∈ waits → (a, c) ∈ waits → b = c

lemma whatOwnerIsWaitingFor_iff (hone : OneWait waits) {a b : O} :
    whatOwnerIsWaitingFor waits a = some b ↔ (a, b) ∈ waits := by
  have hfound : ∀ w, waits.find? (fun w => w.1 = a) = some w → (a, w.2) ∈ waits := by
    intro w hw
    have hfst : w.1 = a := by simpa using find?_some hw
    exact hfst ▸ mem_of_find?_eq_some hw
  unfold whatOwnerIsWaitingFor
  cases hfind : waits.find? fun w => w.1 = a with
  | none => exact iff_of_false nofun fun h => find?_eq_none.mp hfind _ h (by simp)
  | some w =>
    refine ⟨fun h => Option.some.inj h ▸ hfound w hfind, fun h => ?_⟩
    rw [Option.map_some, hone a w.2 b (hfound w hfind) h]

lemma deadlockLoop_succ (hone : OneWait waits) (caller : O) (n : Nat) (owner : O) :
    deadlockLoop waits caller (n + 1) owner = true ↔
      ∃ b, (owner, b) ∈ waits ∧ (caller = b ∨ deadlockLoop waits caller n b = true) := by
  simp only [← whatOwnerIsWaitingFor_iff hone, deadlockLoop]
  cases whatOwnerIsWaitingFor waits owner <;> simp

lemma deadlockLoop_iff (hone : OneWait waits) (caller : O) (fuel : Nat) (owner : O) :
    deadlockLoop waits caller fuel owner = true ↔
      ∃ n, 0 < n ∧ n ≤ fuel ∧ WaitsFor waits n owner caller := by
  induction fuel generalizing owner with
  | zero => exact iff_of_false nofun fun ⟨n, hpos, hle, _⟩ => by omega
  | succ fuel ih =>
    rw [deadlockLoop_succ hone]
    constructor
    · rintro ⟨b, hb, rfl | h⟩
      · exact ⟨1, by omega, by omega, _, hb, rfl⟩
      · obtain ⟨n, -, hle, hn⟩ := (ih b).mp h
        exact ⟨n + 1, by omega, by omega, b, hb, hn⟩
    rintro ⟨_ | n, hpos, hle, hn⟩
    · omega
    obtain ⟨b, hb, hn⟩ := hn
    refine ⟨b, hb, ?_⟩
    cases n with
    | zero => exact .inl hn.symm
    | succ n => exact .inr ((ih b).mpr ⟨n + 1, by omega, by omega, hn⟩)

/-- Deadlock detection: a deadlock is reported only if the owner of the lock
in the way waits, over others, for the caller, so that the wait of the caller
closes a cycle; and it is reported if that takes no more than
`MAX_DEADLK_ITERATIONS` waits. A lock in the way is never the caller's own. The
loop ends whatever the waits are: it is bounded by its counter. -/
theorem deadlock_detected (waits : List (O × O)) (hone : OneWait waits) (caller block : Lock O) :
    (posixLocksDeadlock waits caller block = true →
      ∃ n, 0 < n ∧ WaitsFor waits n block.owner caller.owner) ∧
    (∀ n, 0 < n → n ≤ 10 → WaitsFor waits n block.owner caller.owner →
      posixLocksDeadlock waits caller block = true) ∧
    (posixLocksConflict caller block = true → ¬WaitsFor waits 0 block.owner caller.owner) := by
  have hiff := deadlockLoop_iff hone caller.owner 11 block.owner
  refine ⟨fun h => ?_, fun n hpos hle hn => hiff.mpr ⟨n, hpos, by omega, hn⟩, fun h heq => ?_⟩
  · obtain ⟨n, hpos, -, hn⟩ := hiff.mp h
    exact ⟨n, hpos, hn⟩
  · simp [posixLocksConflict, if_pos heq.symm] at h

/-- The holder waits for another owner, who waits for the caller. -/
theorem twoWaits_detected : OneWait [(1, 2), (2, 0)] ∧
    posixLocksDeadlock [(1, 2), (2, 0)] (⟨0, .wrlck, 0, 9⟩ : Lock Nat) ⟨1, .wrlck, 0, 9⟩
      = true := by
  have hone : OneWait [(1, 2), (2, 0)] := by
    intro a b c hb hc
    simp at hb hc
    omega
  exact ⟨hone, (deadlock_detected _ hone _ _).2.1 2 (by decide) (by decide)
    ⟨2, by simp, 0, by simp, rfl⟩⟩

end BoardStack.Locks
