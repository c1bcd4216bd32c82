/-
Binary trees linked in a heap, with parent pointers.

A tree of pointers is a value, `PtrTree P C`; where it is changed is a position
in it, a list of frames from the hole to the root (`Ctx`). `HasTree mk h par t`
says that the heap `h` holds the tree `t` below the parent `par`, where `mk`
builds the node a program stores for given links: how it encodes a missing
child or parent is up to `mk`. `HasCtx` is the same for the rest of the tree
around a hole.

A program that changes a few nodes is verified in three steps: take the tree
apart around the place (`hasTree_plug`), follow the writes on the few nodes
involved, and put it together again, the parts that were not written being
untouched (`hasTree_congr`, `hasCtx_congr`). The two sides of a tree are a
`Dir`, so that a mirrored pair of functions is one function and one proof.
-/
import Mathlib.Data.List.Nodup

namespace BoardStack.Base

open List

-- == trees

/-- A side of a node. -/
inductive Dir where
  | left
  | right
  deriving DecidableEq, Repr

def Dir.opp : Dir → Dir
  | .left => .right
  | .right => .left

@[simp] lemma Dir.opp_opp (d : Dir) : d.opp.opp = d := by
  cases d <;> rfl

lemma Dir.eq_or_eq_opp (e d : Dir) : e = d ∨ e = d.opp := by
  cases e <;> cases d <;> simp [opp]

/-- A sequence as seen from one side. -/
def Dir.orient {P : Type} (d : Dir) (l : List P) : List P :=
  match d with
  | .left => l
  | .right => l.reverse

/-- A binary tree of pointers, each with an attribute. -/
inductive PtrTree (P C : Type) where
  | leaf
  | node (l : PtrTree P C) (p : P) (c : C) (r : PtrTree P C)

variable {P C N : Type}

namespace PtrTree

/-- The node with `near` on side `d` and `far` on the other. -/
def branch (d : Dir) (p : P) (c : C) (near far : PtrTree P C) : PtrTree P C :=
  match d with
  | .left => .node near p c far
  | .right => .node far p c near

def root? : PtrTree P C → Option P
  | .leaf => none
  | .node _ p _ _ => some p

def toList : PtrTree P C → List P
  | .leaf => []
  | .node l p _ r => l.toList ++ p :: r.toList

def size : PtrTree P C → Nat
  | .leaf => 0
  | .node l _ _ r => l.size + 1 + r.size

@[simp] lemma root?_branch (d : Dir) (p : P) (c : C)
    (near far : PtrTree P C) : (branch d p c near far).root? = some p := by
  cases d <;> rfl

@[simp] lemma toList_leaf : (leaf : PtrTree P C).toList = [] := rfl

variable {near far : PtrTree P C} {d : Dir} {c : C}

lemma mem_branch {p q : P} :
    q ∈ (branch d p c near far).toList ↔ q = p ∨ q ∈ near.toList ∨ q ∈ far.toList := by
  cases d <;> simp only [branch, toList, List.mem_append, List.mem_cons] <;>
    tauto

variable {p : P}

lemma nodup_branch :
    (branch d p c near far).toList.Nodup ↔ p ∉ near.toList ∧ p ∉ far.toList ∧ near.toList.Nodup ∧
        far.toList.Nodup ∧ near.toList.Disjoint far.toList := by
  cases d <;> simp only [branch, toList, nodup_append', nodup_cons, disjoint_cons_right]
  · tauto
  · tauto

lemma branch_opp (d : Dir) (p : P) (c : C) (near far : PtrTree P C) :
    branch d.opp p c near far = branch d p c far near := by
  cases d <;> rfl

lemma orient_branch (d : Dir) (p : P) (c : C) (near far : PtrTree P C) :
    d.orient (branch d p c near far).toList = d.orient near.toList ++ p :: d.orient far.toList := by
  cases d <;> simp [Dir.orient, branch, toList]

lemma size_branch (d : Dir) (p : P) (c : C) (near far : PtrTree P C) :
    (branch d p c near far).size = near.size + far.size + 1 := by
  cases d <;> simp only [branch, size] <;> omega

variable {t : PtrTree P C}

lemma eq_branch (d : Dir) (h : t.root? = some p) : ∃ c near far, t = branch d p c near far := by
  cases t with
  | leaf => cases h
  | node l q c r =>
    obtain rfl : q = p := by simpa [root?] using h
    cases d with
    | left => exact ⟨c, l, r, rfl⟩
    | right => exact ⟨c, r, l, rfl⟩

lemma eq_leaf_of_root? (h : t.root? = none) : t = .leaf := by
  cases t with
  | leaf => rfl
  | node l p c r => cases h

lemma mem_of_root? (h : t.root? = some p) : p ∈ t.toList := by
  cases t with
  | leaf => cases h
  | node l q c r =>
    obtain rfl : q = p := by simpa [root?] using h
    simp [toList]

lemma size_eq_length (t : PtrTree P C) : t.size = t.toList.length := by
  induction t with
  | leaf => rfl
  | node l p c r ihl ihr =>
    simp only [size, toList, length_append, length_cons, ihl, ihr]
    omega

end PtrTree

-- == positions

/-- A node on the way to the root, with the side the way comes from and the
subtree on the other side. -/
structure Frame (P C : Type) where
  dir : Dir
  ptr : P
  attr : C
  sib : PtrTree P C

/-- The node of a frame, with the given tree in the hole. -/
def Frame.fill (f : Frame P C) (t : PtrTree P C) : PtrTree P C := .branch f.dir f.ptr f.attr t f.sib

/-- A position: the frames from the hole to the root. -/
abbrev Ctx (P C : Type) := List (Frame P C)

namespace Ctx

/-- The whole tree, with the given one in the hole. -/
def plug : Ctx P C → PtrTree P C → PtrTree P C
  | [], t => t
  | f :: ctx, t => plug ctx (f.fill t)

def parent : Ctx P C → Option P
  | [] => none
  | f :: _ => some f.ptr

/-- The pointer to the whole tree, when the hole holds `x`. -/
def top : Ctx P C → Option P → Option P
  | [], x => x
  | f :: ctx, _ => top ctx (some f.ptr)

def before : Ctx P C → List P
  | [] => []
  | f :: ctx => match f.dir with
      | .left => before ctx
      | .right => before ctx ++ (f.sib.toList ++ [f.ptr])

def after : Ctx P C → List P
  | [] => []
  | f :: ctx => match f.dir with
      | .left => f.ptr :: f.sib.toList ++ after ctx
      | .right => after ctx

@[simp] lemma parent_cons (f : Frame P C) (ctx : Ctx P C) : parent (f :: ctx) = some f.ptr := rfl

@[simp] lemma plug_nil (t : PtrTree P C) : plug ([] : Ctx P C) t = t := rfl

@[simp] lemma plug_cons (f : Frame P C) (ctx : Ctx P C) (t : PtrTree P C) :
    plug (f :: ctx) t = plug ctx (f.fill t) := rfl

lemma plug_near (ctx : Ctx P C) (d : Dir) (p : P) (c : C) (x y : PtrTree P C) :
    plug (⟨d, p, c, y⟩ :: ctx) x = plug ctx (.branch d p c x y) := rfl

lemma plug_far (ctx : Ctx P C) (d : Dir) (p : P) (c : C) (x y : PtrTree P C) :
    plug (⟨d.opp, p, c, x⟩ :: ctx) y = plug ctx (.branch d p c x y) := by
  rw [plug_cons, Frame.fill, PtrTree.branch_opp]

lemma plug_append (ctx1 ctx2 : Ctx P C) (t : PtrTree P C) :
    plug (ctx1 ++ ctx2) t = plug ctx2 (plug ctx1 t) := by
  induction ctx1 generalizing t with
  | nil => rfl
  | cons f ctx1 ih => exact ih (f.fill t)

lemma toList_plug (ctx : Ctx P C) (t : PtrTree P C) :
    (plug ctx t).toList = before ctx ++ (t.toList ++ after ctx) := by
  induction ctx generalizing t with
  | nil => simp [plug, before, after]
  | cons f ctx ih =>
    rw [plug_cons, ih]
    cases hd : f.dir <;>
      simp [Frame.fill, PtrTree.branch, before, after, hd, PtrTree.toList]

lemma toList_plug_branch (ctx : Ctx P C) (p : P) (c : C) (l r : PtrTree P C) :
    (plug ctx (.branch .left p c l r)).toList
      = (before ctx ++ l.toList) ++ p :: (r.toList ++ after ctx) := by
  rw [toList_plug]
  simp [PtrTree.branch, PtrTree.toList]

lemma root?_plug (ctx : Ctx P C) (t : PtrTree P C) : (plug ctx t).root? = top ctx t.root? := by
  induction ctx generalizing t with
  | nil => rfl
  | cons f ctx ih =>
    rw [plug_cons, ih, Frame.fill, PtrTree.root?_branch]
    rfl

/-- The pointers around a hole. -/
def Mem (q : P) (ctx : Ctx P C) : Prop := q ∈ before ctx ∨ q ∈ after ctx

variable {ctx : Ctx P C} {q : P}

lemma mem_cons {f : Frame P C} : Mem q (f :: ctx) ↔ q = f.ptr ∨ q ∈ f.sib.toList ∨ Mem q ctx := by
  unfold Mem
  cases hd : f.dir <;> simp [before, after, hd] <;> tauto

lemma mem_append {ctx1 ctx2 : Ctx P C} : Mem q (ctx1 ++ ctx2) ↔ Mem q ctx1 ∨ Mem q ctx2 := by
  induction ctx1 with
  | nil => simp [Mem, before, after]
  | cons f ctx1 ih =>
    rw [cons_append, mem_cons, mem_cons, ih]
    tauto

lemma mem_plug : q ∈ (plug ctx t).toList ↔ q ∈ t.toList ∨ Mem q ctx := by
  rw [toList_plug]
  unfold Mem
  simp only [List.mem_append]
  tauto

lemma mem_of_parent (h : parent ctx = some q) : Mem q ctx := by
  cases ctx with
  | nil => cases h
  | cons f ctx =>
    obtain rfl : f.ptr = q := by simpa [parent] using h
    exact mem_cons.mpr (.inl rfl)

lemma length_le_size (ctx : Ctx P C) (t : PtrTree P C) :
    ctx.length + t.size ≤ (plug ctx t).size := by
  induction ctx generalizing t with
  | nil => simp
  | cons f ctx ih =>
    have hfill := ih (f.fill t)
    rw [Frame.fill, PtrTree.size_branch] at hfill
    rw [plug_cons, Frame.fill, length_cons]
    omega

lemma exists_of_mem (d : Dir) (h : p ∈ t.toList) :
    ∃ (ctx : Ctx P C) (c : C) (x y : PtrTree P C), t = ctx.plug (.branch d p c x y) := by
  induction t with
  | leaf => cases h
  | node l q c r ihl ihr =>
    simp only [PtrTree.toList, List.mem_append, List.mem_cons] at h
    rcases h with h | rfl | h
    · obtain ⟨ctx, c', x, y, rfl⟩ := ihl h
      refine ⟨ctx ++ [⟨.left, q, c, r⟩], c', x, y, ?_⟩
      rw [plug_append]
      rfl
    · obtain ⟨c', x, y, hb⟩ := PtrTree.eq_branch d (p := p) (t := .node l p c r) rfl
      exact ⟨[], c', x, y, hb⟩
    · obtain ⟨ctx, c', x, y, rfl⟩ := ihr h
      refine ⟨ctx ++ [⟨.right, q, c, l⟩], c', x, y, ?_⟩
      rw [plug_append]
      rfl

/-- What is in a hole at the end of a side comes first from there. -/
lemma orient_plug (h : ∀ f ∈ ctx, f.dir = d) :
    ∃ rest, ∀ t : PtrTree P C, d.orient (plug ctx t).toList = d.orient t.toList ++ rest := by
  induction ctx with
  | nil => exact ⟨[], fun t => by simp⟩
  | cons f ctx ih =>
    obtain ⟨rest, hrest⟩ := ih fun g hg => h g (mem_cons_of_mem f hg)
    obtain rfl : f.dir = d := h f mem_cons_self
    refine ⟨f.ptr :: f.dir.orient f.sib.toList ++ rest, fun t => ?_⟩
    rw [plug_cons, hrest, Frame.fill, PtrTree.orient_branch, append_assoc]

/-- The pointers beyond a hole, walking on towards side `d`. -/
def beyond (d : Dir) : Ctx P C → List P
  | [] => []
  | f :: ctx =>
    if f.dir = d then beyond d ctx
    else f.ptr :: d.opp.orient f.sib.toList ++ beyond d ctx

lemma beyond_right (ctx : Ctx P C) : beyond .right ctx = after ctx := by
  induction ctx with
  | nil => rfl
  | cons f ctx ih =>
    rw [beyond, after, ih]
    cases f.dir <;> rfl

lemma beyond_left (ctx : Ctx P C) : beyond .left ctx = (before ctx).reverse := by
  induction ctx with
  | nil => rfl
  | cons f ctx ih =>
    rw [beyond, before, ih]
    cases f.dir <;> simp [Dir.orient, Dir.opp]

lemma split_eq {l r : PtrTree P C}
    {l1 l2 : List P} (hnd : (plug ctx (.branch .left p c l r)).toList.Nodup)
    (h : (plug ctx (.branch .left p c l r)).toList = l1 ++ p :: l2) :
    l1 = before ctx ++ l.toList ∧ l2 = r.toList ++ after ctx := by
  rw [toList_plug_branch, perm_middle.nodup_iff, nodup_cons, List.mem_append, not_or] at hnd
  rw [toList_plug_branch, append_cons_inj_of_notMem hnd.1.1 hnd.1.2] at h
  exact ⟨h.1.symm, h.2.2.symm⟩

lemma mem_of_top (f : Frame P C) (ctx : Ctx P C) (x : Option P) :
    ∃ r, top (f :: ctx) x = some r ∧ Mem r (f :: ctx) := by
  induction ctx generalizing f x with
  | nil => exact ⟨f.ptr, rfl, mem_cons.mpr (.inl rfl)⟩
  | cons g ctx ih =>
    obtain ⟨r, hr, hmem⟩ := ih g (some f.ptr)
    exact ⟨r, hr, mem_cons.mpr (.inr (.inr hmem))⟩

/-- In a tree without repetitions, what is in the hole is not around it. -/
lemma not_mem_of_nodup (h : (plug ctx t).toList.Nodup) (hq : q ∈ t.toList) : ¬ Mem q ctx := by
  rw [toList_plug, nodup_append'] at h
  obtain ⟨-, hrest, hbefore⟩ := h
  rw [nodup_append'] at hrest
  obtain ⟨-, -, hafter⟩ := hrest
  rintro (hmem | hmem)
  · exact hbefore hmem (mem_append_left _ hq)
  · exact hafter hq hmem

lemma nodup_of_plug (h : (plug ctx t).toList.Nodup) : t.toList.Nodup := by
  rw [toList_plug] at h
  exact (nodup_append'.mp (nodup_append'.mp h).2.1).1

end Ctx

-- == trees in a heap

section

/-- The node `mk` stores for given links, the children by side. -/
def mkDir (mk : P → Option P → Option P → Option P → C → N) (d : Dir)
    (p : P) (par near far : Option P) (c : C) : N :=
  match d with
  | .left => mk p par near far c
  | .right => mk p par far near c

variable (mk : P → Option P → Option P → Option P → C → N)

/-- The heap holds a tree below a parent. -/
def HasTree (h : P → Option N) (par : Option P) : PtrTree P C → Prop
  | .leaf => True
  | .node l p c r =>
    h p = some (mk p par l.root? r.root? c) ∧ HasTree h (some p) l ∧ HasTree h (some p) r

/-- The heap holds the tree around a hole that points at `x`. -/
def HasCtx (h : P → Option N) : Ctx P C → Option P → Prop
  | [], _ => True
  | f :: ctx, x =>
    h f.ptr = some (mkDir mk f.dir f.ptr (Ctx.parent ctx) x f.sib.root? f.attr) ∧
      HasTree mk h (some f.ptr) f.sib ∧ HasCtx h ctx (some f.ptr)

variable {mk}

variable {h : P → Option N}

lemma hasTree_branch {par : Option P} :
    HasTree mk h par (.branch d p c near far)
      ↔ h p = some (mkDir mk d p par near.root? far.root? c) ∧
        HasTree mk h (some p) near ∧ HasTree mk h (some p) far := by
  cases d with
  | left => exact Iff.rfl
  | right =>
    show _ ∧ _ ∧ _ ↔ _ ∧ _ ∧ _
    rw [and_comm (a := HasTree mk h (some p) near)]
    exact Iff.rfl

/-- A tree in the heap is what is in the hole and what is around it. -/
lemma hasTree_plug :
    HasTree mk h none (ctx.plug t) ↔ HasCtx mk h ctx t.root? ∧ HasTree mk h ctx.parent t := by
  induction ctx generalizing t with
  | nil => exact (true_and _).symm.to_iff
  | cons f ctx ih =>
    rw [Ctx.plug_cons, ih, Frame.fill, hasTree_branch, PtrTree.root?_branch]
    constructor
    · rintro ⟨hctx, hnode, ht, hsib⟩
      exact ⟨⟨hnode, hsib, hctx⟩, ht⟩
    · rintro ⟨⟨hnode, hsib, hctx⟩, ht⟩
      exact ⟨hctx, hnode, ht, hsib⟩

variable {h h' : P → Option N}

lemma hasTree_congr {par : Option P}
    (heq : ∀ q, q ∈ t.toList → h' q = h q) (ht : HasTree mk h par t) :
    HasTree mk h' par t := by
  induction t generalizing par with
  | leaf => trivial
  | node l p c r ihl ihr =>
    obtain ⟨hnode, hl, hr⟩ := ht
    refine ⟨?_, ihl (fun q hq => heq q ?_) hl, ihr (fun q hq => heq q ?_) hr⟩
    · rw [heq p (by simp [PtrTree.toList]), hnode]
    · simp [PtrTree.toList, hq]
    · simp [PtrTree.toList, hq]

/-- What is around a hole and was not written to is still there. -/
lemma hasCtx_congr {x : Option P}
    (heq : ∀ q, Ctx.Mem q ctx → h' q = h q) (hc : HasCtx mk h ctx x) :
    HasCtx mk h' ctx x := by
  induction ctx generalizing x with
  | nil => trivial
  | cons f ctx ih =>
    obtain ⟨hnode, hsib, hrest⟩ := hc
    refine ⟨?_, ?_, ?_⟩
    · rw [heq _ (Ctx.mem_cons.mpr (.inl rfl)), hnode]
    · exact hasTree_congr (fun q hq => heq q (Ctx.mem_cons.mpr (.inr (.inl hq)))) hsib
    · exact ih (fun q hq => heq q (Ctx.mem_cons.mpr (.inr (.inr hq)))) hrest

end

end BoardStack.Base
