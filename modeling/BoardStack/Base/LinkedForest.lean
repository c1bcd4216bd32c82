/-
Ordered forests linked in a heap: every cell points to its parent, to its first
child and to its next sibling.

A forest of pointers is a value, `Forest P C`. `HasForest h par next f` says that
the heap `h` holds `f`: the roots of `f` are siblings with the parent `par`, and
the last of them points to `next`, so that a part of a list of siblings is a
forest too (`hasForest_append`).

A program that walks such a list has the address of a pointer in hand, a `Link`:
the child pointer of the parent or the sibling pointer of the last tree passed
(`lastLink`). Writing it replaces everything behind the place
(`hasForest_splice`), and what is done to the children of one node is done to
the whole forest (`hasForest_setKids`).
-/
import Mathlib.Data.List.Nodup

namespace BoardStack.Base

open Function
open List (mem_cons mem_append mem_cons_of_mem not_mem_nil mem_cons_self mem_append_right
  map_append)

-- == forests

/-- A forest of pointers with attributes: the first tree, by its root and the
forest below, and the trees behind it. -/
inductive Forest (P C : Type) where
  | nil
  | cons (p : P) (c : C) (kids rest : Forest P C)

/-- A node of a forest, with the forest below it. -/
structure Node (P C : Type) where
  ptr : P
  attr : C
  kids : Forest P C

variable {P C : Type}

namespace Forest

def append : Forest P C → Forest P C → Forest P C
  | nil, g => g
  | cons p c kids rest, g => cons p c kids (append rest g)

/-- The pointer to a forest that is followed by `next`. -/
def first (next : Option P) : Forest P C → Option P
  | nil => next
  | cons p _ _ _ => some p

/-- The nodes, each before those below it. -/
def nodes : Forest P C → List (Node P C)
  | nil => []
  | cons p c kids rest => ⟨p, c, kids⟩ :: (nodes kids ++ nodes rest)

def ptrs (f : Forest P C) : List P := f.nodes.map Node.ptr

def roots : Forest P C → List (Node P C)
  | nil => []
  | cons p c kids rest => ⟨p, c, kids⟩ :: roots rest

def tops (f : Forest P C) : List C := f.roots.map Node.attr

variable {f g kids rest : Forest P C} {p q : P} {c : C} {next : Option P}

@[simp] lemma nil_append : append nil g = g := rfl

@[simp] lemma cons_append : append (cons p c kids rest) g = cons p c kids (append rest g) := rfl

@[simp] lemma first_nil : first next (nil : Forest P C) = next := rfl

@[simp] lemma first_cons : first next (cons p c kids rest) = some p := rfl

@[simp] lemma first_append : first next (append f g) = first (first next g) f := by
  cases f <;> rfl

@[simp] lemma nodes_append : nodes (append f g) = nodes f ++ nodes g := by
  induction f with
  | nil => rfl
  | cons p c kids rest _ ih =>
    rw [cons_append, nodes, nodes, ih, List.cons_append, List.append_assoc]

@[simp] lemma ptrs_nil : ptrs (nil : Forest P C) = [] := rfl

@[simp] lemma ptrs_cons : ptrs (cons p c kids rest) = p :: (ptrs kids ++ ptrs rest) := by
  unfold ptrs
  rw [nodes, List.map_cons, map_append]

@[simp] lemma ptrs_append : ptrs (append f g) = ptrs f ++ ptrs g := by
  unfold ptrs
  rw [nodes_append, map_append]

@[simp] lemma roots_append : roots (append f g) = roots f ++ roots g := by
  induction f with
  | nil => rfl
  | cons p c kids rest _ ih => rw [cons_append, roots, roots, ih, List.cons_append]

@[simp] lemma tops_nil : tops (nil : Forest P C) = [] := rfl

@[simp] lemma tops_cons : tops (cons p c kids rest) = c :: tops rest := rfl

@[simp] lemma tops_append : tops (append f g) = tops f ++ tops g := by
  unfold tops
  rw [roots_append, map_append]

variable {x : Node P C}

lemma mem_nodes_of_mem_roots (h : x ∈ f.roots) : x ∈ f.nodes := by
  induction f with
  | nil => exact h
  | cons p c kids rest _ ih =>
    rcases mem_cons.mp h with rfl | h
    · exact mem_cons_self
    · exact mem_cons_of_mem _ (mem_append_right _ (ih h))

lemma mem_nodes_trans {x y : Node P C} (hx : x ∈ f.nodes)
    (hy : y ∈ x.kids.nodes) : y ∈ f.nodes := by
  induction f with
  | nil => exact absurd hx not_mem_nil
  | cons p c kids rest ihk ihr =>
    apply mem_cons_of_mem
    rw [mem_append]
    rcases mem_cons.mp hx with rfl | hx
    · exact .inl hy
    · rcases mem_append.mp hx with hx | hx
      · exact .inl (ihk hx)
      · exact .inr (ihr hx)

lemma length_kids_lt (hx : x ∈ f.nodes) : x.kids.nodes.length < f.nodes.length := by
  induction f with
  | nil => exact absurd hx not_mem_nil
  | cons p c kids rest ihk ihr =>
    rw [nodes, List.length_cons, List.length_append]
    rcases mem_cons.mp hx with rfl | hx
    · dsimp only
      omega
    rcases mem_append.mp hx with hx | hx
    · have := ihk hx
      omega
    · have := ihr hx
      omega

lemma exists_root_of_mem (hx : x ∈ f.nodes) : ∃ r ∈ f.roots, x = r ∨ x ∈ r.kids.nodes := by
  induction f with
  | nil => exact absurd hx not_mem_nil
  | cons p c kids rest _ ih =>
    rcases mem_cons.mp hx with rfl | hx
    · exact ⟨_, mem_cons_self, .inl rfl⟩
    · rcases mem_append.mp hx with hx | hx
      · exact ⟨_, mem_cons_self, .inr hx⟩
      · obtain ⟨r, hr, hxr⟩ := ih hx
        exact ⟨r, mem_cons_of_mem _ hr, hxr⟩

lemma exists_of_mem_roots (hx : x ∈ f.roots) :
    ∃ before rest : Forest P C, f = before.append (cons x.ptr x.attr x.kids rest) := by
  induction f with
  | nil => exact absurd hx not_mem_nil
  | cons p c kids rest _ ih =>
    rcases mem_cons.mp hx with rfl | hx
    · exact ⟨nil, rest, rfl⟩
    · obtain ⟨before, rest', rfl⟩ := ih hx
      exact ⟨cons p c kids before, rest', rfl⟩

lemma mem_ptrs_of_mem_nodes (hx : x ∈ f.nodes) : x.ptr ∈ f.ptrs := List.mem_map_of_mem hx

lemma eq_of_ptr_eq {x y : Node P C} (hf : f.ptrs.Nodup) (hx : x ∈ f.nodes)
    (hy : y ∈ f.nodes) (hxy : x.ptr = y.ptr) : x = y :=
  List.inj_on_of_nodup_map hf hx hy hxy

lemma nodup_cons : (cons p c kids rest).ptrs.Nodup ↔
    p ∉ kids.ptrs ∧ p ∉ rest.ptrs ∧ kids.ptrs.Nodup ∧ rest.ptrs.Nodup ∧
      kids.ptrs.Disjoint rest.ptrs := by
  rw [ptrs_cons, List.nodup_cons, List.nodup_append', mem_append, not_or, and_assoc]

variable [DecidableEq P]

/-- The forest with other children below the node `q`. -/
def setKids (q : P) : Forest P C → Forest P C → Forest P C
  | nil, _ => nil
  | cons p c kids rest, new =>
    if p = q then cons p c new rest
    else cons p c (setKids q kids new) (setKids q rest new)

variable {new : Forest P C}

lemma setKids_of_not_mem (h : q ∉ f.ptrs) : f.setKids q new = f := by
  induction f with
  | nil => rfl
  | cons p c kids rest ihk ihr =>
    simp only [ptrs_cons, mem_cons, mem_append, not_or] at h
    rw [setKids, if_neg (Ne.symm h.1), ihk h.2.1, ihr h.2.2]

@[simp] lemma first_setKids : (f.setKids q new).first next = f.first next := by
  cases f with
  | nil => rfl
  | cons p c kids rest =>
    rw [setKids]
    split_ifs <;> rfl

@[simp] lemma tops_setKids : (f.setKids q new).tops = f.tops := by
  induction f with
  | nil => rfl
  | cons p c kids rest _ ih =>
    rw [setKids]
    split_ifs
    · rfl
    · rw [tops_cons, tops_cons, ih]

lemma ptrs_setKids {k : Forest P C} (new : Forest P C) (hf : f.ptrs.Nodup)
    (hq : (⟨q, c, k⟩ : Node P C) ∈ f.nodes) : ∃ l r, f.ptrs = l ++ (k.ptrs ++ r) ∧ q ∈ l ∧
        (f.setKids q new).ptrs = l ++ (new.ptrs ++ r) := by
  induction f with
  | nil => exact absurd hq not_mem_nil
  | cons p c' kids rest ihk ihr =>
    obtain ⟨hpk, hpr, hk, hr, hdisj⟩ := nodup_cons.mp hf
    rcases mem_cons.mp hq with heq | hmem
    · obtain ⟨rfl, rfl, rfl⟩ : q = p ∧ c = c' ∧ k = kids := by simpa using heq
      refine ⟨[q], rest.ptrs, by simp, by simp, ?_⟩
      rw [setKids, if_pos rfl]
      simp
    rcases mem_append.mp hmem with hmem | hmem
    · have hin : q ∈ kids.ptrs := mem_ptrs_of_mem_nodes hmem
      have hne : p ≠ q := fun heq => hpk (heq ▸ hin)
      obtain ⟨l, r, hl, hql, hset⟩ := ihk hk hmem
      refine ⟨p :: l, r ++ rest.ptrs, by simp [hl], by simp [hql], ?_⟩
      rw [setKids, if_neg hne, setKids_of_not_mem (hdisj hin)]
      simp [hset]
    have hin : q ∈ rest.ptrs := mem_ptrs_of_mem_nodes hmem
    have hne : p ≠ q := fun heq => hpr (heq ▸ hin)
    obtain ⟨l, r, hl, hql, hset⟩ := ihr hr hmem
    refine ⟨p :: (kids.ptrs ++ l), r, by simp [hl], by simp [hql], ?_⟩
    rw [setKids, if_neg hne, setKids_of_not_mem fun hkids => hdisj hkids hin]
    simp [hset]

/-- A node after the change is one from before, with children that have the
attributes they had; or the node that was changed; or one below it. -/
lemma mem_nodes_setKids (hx : x ∈ (f.setKids q new).nodes) :
    (∃ y ∈ f.nodes, x.attr = y.attr ∧ x.kids.tops = y.kids.tops) ∨
      (∃ y ∈ f.nodes, y.ptr = q ∧ x = ⟨q, y.attr, new⟩) ∨ x ∈ new.nodes := by
  induction f with
  | nil => exact absurd hx not_mem_nil
  | cons p c kids rest ihk ihr =>
    -- what holds of a part holds of the whole
    have hlift : ∀ {part : Forest P C}, (∀ y ∈ part.nodes, y ∈ (cons p c kids rest).nodes) →
        ((∃ y ∈ part.nodes, x.attr = y.attr ∧ x.kids.tops = y.kids.tops) ∨
          (∃ y ∈ part.nodes, y.ptr = q ∧ x = ⟨q, y.attr, new⟩) ∨ x ∈ new.nodes) →
        (∃ y ∈ (cons p c kids rest).nodes, x.attr = y.attr ∧ x.kids.tops = y.kids.tops) ∨
          (∃ y ∈ (cons p c kids rest).nodes, y.ptr = q ∧ x = ⟨q, y.attr, new⟩) ∨ x ∈ new.nodes := by
      rintro part hsub (⟨y, hy, h⟩ | ⟨y, hy, h⟩ | h)
      · exact .inl ⟨y, hsub y hy, h⟩
      · exact .inr (.inl ⟨y, hsub y hy, h⟩)
      · exact .inr (.inr h)
    rw [setKids] at hx
    split_ifs at hx with hpq
    · rcases mem_cons.mp hx with rfl | hx
      · exact .inr (.inl ⟨⟨p, c, kids⟩, mem_cons_self, hpq, by rw [hpq]⟩)
      · rcases mem_append.mp hx with hx | hx
        · exact .inr (.inr hx)
        · exact .inl ⟨x, mem_cons_of_mem _ (mem_append_right _ hx), rfl, rfl⟩
    rcases mem_cons.mp hx with rfl | hx
    · exact .inl ⟨⟨p, c, kids⟩, mem_cons_self, rfl, tops_setKids⟩
    rcases mem_append.mp hx with hx | hx
    · apply hlift _ (ihk hx)
      exact fun y hy =>
        mem_cons_of_mem _ (List.mem_append_left _ hy)
    · apply hlift _ (ihr hx)
      exact fun y hy =>
        mem_cons_of_mem _ (mem_append_right _ hy)

end Forest

-- == heap

/-- A cell: its attribute and its three pointers. -/
structure Cell (P C : Type) where
  attr : C
  parent : Option P
  sibling : Option P
  child : Option P
deriving DecidableEq

open Forest

/-- The heap holds a forest: siblings with a parent, followed by `next`. -/
def HasForest (h : P → Cell P C) (par next : Option P) : Forest P C → Prop
  | .nil => True
  | .cons p c kids rest =>
    h p = ⟨c, par, rest.first next, kids.first none⟩ ∧
      HasForest h (some p) none kids ∧ HasForest h par next rest

variable {h h' : P → Cell P C} {par next : Option P} {f g kids rest : Forest P C} {p q : P} {c : C}

lemma hasForest_congr (hf : HasForest h par next f)
    (hsame : ∀ p ∈ f.ptrs, h' p = h p) : HasForest h' par next f := by
  induction f generalizing par next with
  | nil => trivial
  | cons p c kids rest ihk ihr =>
    simp only [ptrs_cons, mem_cons, mem_append] at hsame
    refine ⟨?_, ihk hf.2.1 fun q hq => hsame q (.inr (.inl hq)),
      ihr hf.2.2 fun q hq => hsame q (.inr (.inr hq))⟩
    rw [hsame p (.inl rfl)]
    exact hf.1

lemma hasForest_append : HasForest h par next (f.append g) ↔
    HasForest h par (g.first next) f ∧ HasForest h par next g := by
  induction f with
  | nil => exact ⟨fun hg => ⟨trivial, hg⟩, fun hg => hg.2⟩
  | cons p c kids rest _ ih =>
    rw [cons_append, HasForest, HasForest, ih, first_append]
    tauto

lemma HasForest.node (hf : HasForest h par next f) (hx : x ∈ f.nodes) :
    (h x.ptr).attr = x.attr ∧ (h x.ptr).child = x.kids.first none ∧
      HasForest h (some x.ptr) none x.kids := by
  induction f generalizing par next with
  | nil => exact absurd hx not_mem_nil
  | cons p c kids rest ihk ihr =>
    rcases mem_cons.mp hx with rfl | hx
    · rw [hf.1]
      exact ⟨rfl, rfl, hf.2.1⟩
    · rcases mem_append.mp hx with hx | hx
      · exact ihk hf.2.1 hx
      · exact ihr hf.2.2 hx

/-- A node is a root, or one of the children of a node that is its parent. -/
lemma HasForest.parent (hf : HasForest h par next f) (hx : x ∈ f.nodes) :
    (x ∈ f.roots ∧ (h x.ptr).parent = par) ∨
      ∃ y ∈ f.nodes, x ∈ y.kids.roots ∧ (h x.ptr).parent = some y.ptr := by
  induction f generalizing par next with
  | nil => exact absurd hx not_mem_nil
  | cons p c kids rest ihk ihr =>
    rcases mem_cons.mp hx with rfl | hx
    · refine .inl ⟨mem_cons_self, ?_⟩
      rw [hf.1]
    rcases mem_append.mp hx with hx | hx
    · rcases ihk hf.2.1 hx with ⟨hroot, hpar⟩ | ⟨y, hy, hroot, hpar⟩
      · exact .inr ⟨⟨p, c, kids⟩, mem_cons_self, hroot, hpar⟩
      · exact .inr ⟨y, mem_cons_of_mem _ (List.mem_append_left _ hy), hroot, hpar⟩
    · rcases ihr hf.2.2 hx with ⟨hroot, hpar⟩ | ⟨y, hy, hroot, hpar⟩
      · exact .inl ⟨mem_cons_of_mem _ hroot, hpar⟩
      · exact .inr ⟨y, mem_cons_of_mem _ (mem_append_right _ hy), hroot, hpar⟩

-- == links

/-- The address of a pointer. -/
inductive Link (P : Type) where
  | child (p : P)
  | sibling (p : P)

namespace Link

def owner : Link P → P
  | child p | sibling p => p

/-- `*p`. -/
def get (h : P → Cell P C) : Link P → Option P
  | child p => (h p).child
  | sibling p => (h p).sibling

variable [DecidableEq P]

/-- `*p = x`. -/
def set (h : P → Cell P C) (x : Option P) : Link P → P → Cell P C
  | child p => update h p { h p with child := x }
  | sibling p => update h p { h p with sibling := x }

variable {x : Option P} {l : Link P}

lemma set_of_ne (hp : p ≠ l.owner) : l.set h x p = h p := by
  cases l with
  | child q | sibling q => exact update_of_ne hp _ h

end Link

/-- The address of the pointer behind a list of siblings. -/
def lastLink (l : Link P) : Forest P C → Link P
  | .nil => l
  | .cons p _ _ rest => lastLink (.sibling p) rest

lemma lastLink_owner (l : Link P) (f : Forest P C) :
    (lastLink l f).owner = l.owner ∨ (lastLink l f).owner ∈ f.ptrs := by
  induction f generalizing l with
  | nil => exact .inl rfl
  | cons p c kids rest _ ih =>
    right
    rw [ptrs_cons, mem_cons, mem_append]
    rcases ih (.sibling p) with heq | hmem
    · exact .inl heq
    · exact .inr (.inr hmem)

lemma ne_lastLink_owner (hp : p ≠ q) (hf : p ∉ f.ptrs) : p ≠ (lastLink (.child q) f).owner := by
  rcases lastLink_owner (.child q) f with heq | hmem
  · rw [heq]
    exact hp
  · rintro rfl
    exact hf hmem

lemma get_lastLink (hf : HasForest h par next f)
    (hl : l.get h = f.first next) : (lastLink l f).get h = next := by
  induction f generalizing l with
  | nil => exact hl
  | cons p c kids rest _ ih =>
    refine ih hf.2.2 ?_
    show (h p).sibling = rest.first next
    rw [hf.1]

variable [DecidableEq P]

lemma hasForest_set_lastLink
    (hf : HasForest h par next f) (hnd : f.ptrs.Nodup) (hl : l.owner ∉ f.ptrs) :
    HasForest ((lastLink l f).set h x) par x f := by
  induction f generalizing l with
  | nil => trivial
  | cons p c kids rest _ ih =>
    obtain ⟨hpk, hpr, hk, hr, hdisj⟩ := nodup_cons.mp hnd
    have hkids : HasForest ((lastLink (.sibling p) rest).set h x) (some p) none
        kids := by
      refine hasForest_congr hf.2.1 fun q hq => Link.set_of_ne ?_
      rcases lastLink_owner (.sibling p) rest with heq | hmem
      · rw [heq]
        rintro rfl
        exact hpk hq
      · rintro rfl
        exact hdisj hq hmem
    refine ⟨?_, hkids, ih hf.2.2 hr hpr⟩
    rw [lastLink]
    cases rest with
    | nil =>
      show update h p { h p with sibling := x } p = _
      rw [update_self, hf.1]
      rfl
    | cons p' c' kids' rest' =>
      rw [Link.set_of_ne, hf.1]
      · rfl
      rcases lastLink_owner (.sibling p') rest' with heq | hmem
      · rw [lastLink, heq]
        rintro rfl
        exact hpr (by simp)
      · rw [lastLink]
        rintro rfl
        exact hpr (by simp [hmem])

lemma set_lastLink_parent (hq : q ∉ f.ptrs) (hc : ∃ y, (h q).child = f.first y) :
    (lastLink (.child q) f).set h x q = { h q with child := f.first x } := by
  cases f with
  | nil => exact update_self q _ h
  | cons p c kids rest =>
    rw [lastLink, Link.set_of_ne]
    · obtain ⟨y, hy⟩ := hc
      rw [first_cons] at hy ⊢
      rw [← hy]
    simp only [ptrs_cons, mem_cons, mem_append, not_or] at hq
    rcases lastLink_owner (.sibling p) rest with heq | hmem
    · rw [heq]
      exact hq.1
    · rintro rfl
      exact hq.2.2 hmem

lemma hasForest_splice {x : Forest P C} (hf : HasForest h (some q) next f)
    (hnd : f.ptrs.Nodup) (hqf : q ∉ f.ptrs) (hqx : q ∉ x.ptrs)
    (hdisj : f.ptrs.Disjoint x.ptrs) (hx : HasForest h (some q) none x) :
    HasForest ((lastLink (.child q) f).set h (x.first none)) (some q) none (f.append x) := by
  rw [hasForest_append]
  refine ⟨hasForest_set_lastLink hf hnd hqf, hasForest_congr hx ?_⟩
  intro p hp
  apply Link.set_of_ne
  apply ne_lastLink_owner
  · rintro rfl
    exact hqx hp
  · exact fun hmem => hdisj hmem hp

lemma hasForest_setKids {k new : Forest P C} (hnd : f.ptrs.Nodup) (hf : HasForest h par next f)
    (hq : (⟨q, c, k⟩ : Node P C) ∈ f.nodes) (hsame : ∀ p ∈ f.ptrs, p ≠ q → p ∉ k.ptrs → h' p = h p)
    (hcell : h' q = { h q with child := new.first none }) (hnew : HasForest h' (some q) none new) :
    HasForest h' par next (f.setKids q new) := by
  induction f generalizing par next with
  | nil => trivial
  | cons p c' kids rest ihk ihr =>
    obtain ⟨hpk, hpr, hk, hr, hdisj⟩ := nodup_cons.mp hnd
    simp only [ptrs_cons, mem_cons, mem_append] at hsame
    have hbelow : ∀ {x : Node P C} {g : Forest P C} {a : P}, x ∈ g.nodes →
        a ∈ x.kids.ptrs → a ∈ g.ptrs := by
      intro x g a hx ha
      obtain ⟨y, hy, rfl⟩ := List.mem_map.mp ha
      exact mem_ptrs_of_mem_nodes (mem_nodes_trans hx hy)
    rcases mem_cons.mp hq with heq | hmem
    · obtain ⟨rfl, rfl, rfl⟩ : q = p ∧ c = c' ∧ k = kids := by simpa using heq
      rw [setKids, if_pos rfl]
      refine ⟨by rw [hcell, hf.1], hnew, hasForest_congr hf.2.2 ?_⟩
      intro a ha
      exact hsame a (.inr (.inr ha)) (fun h => hpr (h ▸ ha)) fun h => hdisj h ha
    rcases mem_append.mp hmem with hmem | hmem
    · have hin : q ∈ kids.ptrs := mem_ptrs_of_mem_nodes hmem
      have hne : p ≠ q := fun heq => hpk (heq ▸ hin)
      rw [setKids, if_neg hne, setKids_of_not_mem (hdisj hin)]
      refine ⟨?_, ihk hk hf.2.1 hmem fun a ha => hsame a (.inr (.inl ha)),
        hasForest_congr hf.2.2 ?_⟩
      · rw [hsame p (.inl rfl) hne fun hp => hpk (hbelow hmem hp), hf.1, first_setKids]
      · intro a ha
        exact hsame a (.inr (.inr ha)) (fun h => hdisj hin (h ▸ ha))
          fun h => hdisj (hbelow hmem h) ha
    · have hin : q ∈ rest.ptrs := mem_ptrs_of_mem_nodes hmem
      have hne : p ≠ q := fun heq => hpr (heq ▸ hin)
      rw [setKids, if_neg hne, setKids_of_not_mem fun hkids => hdisj hkids hin]
      refine ⟨?_, hasForest_congr hf.2.1 ?_,
        ihr hr hf.2.2 hmem fun a ha => hsame a (.inr (.inr ha))⟩
      · rw [hsame p (.inl rfl) hne fun hp => hpr (hbelow hmem hp), hf.1, first_setKids]
      · intro a ha
        exact hsame a (.inr (.inl ha)) (fun h => hdisj ha (h ▸ hin))
          fun h => hdisj ha (hbelow hmem h)

end BoardStack.Base
