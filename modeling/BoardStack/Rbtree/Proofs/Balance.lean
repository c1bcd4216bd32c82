/-
The balance of red-black trees, and of trees with a hole; walks in their order.

`RedBlack` is the invariant as it is usually stated: a black root, no red
node with a red child, the same number of black nodes on every path. The
proofs use `Valid pc n t`, the same facts for a subtree below a node of
colour `pc`, and `CtxOk ctx n` for the rest of the tree around a hole that
needs black height `n`: a tree is valid when both parts are
(`valid_plug_iff`). A rebalancing loop moves the hole up and repairs one
level.

`rb_first`, `rb_last`, `rb_next` and `rb_prev` go down one side, to the first node
from there (`rbFar_spec`), or up while the node is the child on one side, to the
first node beyond the subtree on that side (`rbClimb_spec`).
-/
import BoardStack.Rbtree.Proofs.Repr

namespace BoardStack.Rbtree

open Base

variable {a : WordSize}
variable {pc : Color} {d : Dir} {n : Nat} {ctx : RbCtx a} {t x y : RbTree a} {p : Word a}

-- == the invariant

def isRed : RbTree a → Bool
  | .leaf => false
  | .node _ _ c _ => c = .red

def NoRedRed : RbTree a → Prop
  | .leaf => True
  | .node l _ c r =>
    (c = .red → isRed l = false ∧ isRed r = false) ∧ NoRedRed l ∧ NoRedRed r

/-- Every path from the root down meets `n` black nodes. -/
def BlackHeight : RbTree a → Nat → Prop
  | .leaf, n => n = 0
  | .node l _ .red r, n => BlackHeight l n ∧ BlackHeight r n
  | .node l _ .black r, n =>
    ∃ m, n = m + 1 ∧ BlackHeight l m ∧ BlackHeight r m

structure RedBlack (t : RbTree a) : Prop where
  root : isRed t = false
  noRedRed : NoRedRed t
  blackHeight : ∃ n, BlackHeight t n

-- == subtrees

/-- A valid subtree of black height `n` below a node of colour `pc`. -/
def Valid (pc : Color) (n : Nat) (t : RbTree a) : Prop :=
  (pc = .red → isRed t = false) ∧ NoRedRed t ∧ BlackHeight t n

lemma redBlack_iff : RedBlack t ↔ ∃ n, Valid .red n t := by
  constructor
  · rintro ⟨hroot, hred, n, hheight⟩
    exact ⟨n, fun _ => hroot, hred, hheight⟩
  · rintro ⟨n, hroot, hred, hheight⟩
    exact ⟨hroot rfl, hred, n, hheight⟩

@[simp] lemma isRed_branch (d : Dir) (p : Word a) (c : Color) (x y : RbTree a) :
    isRed (.branch d p c x y) = decide (c = .red) := by
  cases d <;> rfl

lemma exists_of_isRed (d : Dir) (h : isRed t = true) : ∃ p x y, t = .branch d p .red x y := by
  cases t with
  | leaf => cases h
  | node l p c r =>
    obtain rfl : c = .red := by simpa [isRed] using h
    cases d with
    | left => exact ⟨p, l, r, rfl⟩
    | right => exact ⟨p, r, l, rfl⟩

lemma eq_branch_of_isRed (d : Dir) (ht : t.root? = some p) (h : isRed t = true) :
    ∃ x y, t = .branch d p .red x y := by
  obtain ⟨q, x, y, rfl⟩ := exists_of_isRed d h
  obtain rfl : q = p := by simpa using ht
  exact ⟨x, y, rfl⟩

lemma valid_leaf (pc : Color) : Valid pc n (.leaf : RbTree a) ↔ n = 0 := by
  refine ⟨fun h => h.2.2, fun h => ⟨fun _ => rfl, trivial, h⟩⟩

lemma valid_red :
    Valid pc n (.branch d p .red x y) ↔ pc = .black ∧ Valid .red n x ∧ Valid .red n y := by
  unfold Valid
  rw [isRed_branch]
  constructor
  · rintro ⟨hpc, hred, hheight⟩
    have hblack : pc = .black := by
      cases pc with
      | red => simpa using hpc rfl
      | black => rfl
    cases d with
    | left =>
      obtain ⟨hkids, hl, hr⟩ := hred
      exact ⟨hblack, ⟨fun _ => (hkids rfl).1, hl, hheight.1⟩,
        ⟨fun _ => (hkids rfl).2, hr, hheight.2⟩⟩
    | right =>
      obtain ⟨hkids, hl, hr⟩ := hred
      exact ⟨hblack, ⟨fun _ => (hkids rfl).2, hr, hheight.2⟩,
        ⟨fun _ => (hkids rfl).1, hl, hheight.1⟩⟩
  · rintro ⟨rfl, ⟨hx, hredx, hheightx⟩, ⟨hy, hredy, hheighty⟩⟩
    refine ⟨fun h => (by cases h), ?_⟩
    cases d with
    | left =>
      exact ⟨⟨fun _ => ⟨hx rfl, hy rfl⟩, hredx, hredy⟩, ⟨hheightx, hheighty⟩⟩
    | right =>
      exact ⟨⟨fun _ => ⟨hy rfl, hx rfl⟩, hredy, hredx⟩, ⟨hheighty, hheightx⟩⟩

lemma valid_black :
    Valid pc n (.branch d p .black x y) ↔ ∃ m, n = m + 1 ∧ Valid .black m x ∧ Valid .black m y := by
  unfold Valid
  rw [isRed_branch]
  constructor
  · rintro ⟨-, hred, hheight⟩
    cases d with
    | left =>
      obtain ⟨-, hl, hr⟩ := hred
      obtain ⟨m, hm, hhl, hhr⟩ := hheight
      exact ⟨m, hm, ⟨fun h => (by cases h), hl, hhl⟩, ⟨fun h => (by cases h), hr, hhr⟩⟩
    | right =>
      obtain ⟨-, hl, hr⟩ := hred
      obtain ⟨m, hm, hhl, hhr⟩ := hheight
      exact ⟨m, hm, ⟨fun h => (by cases h), hr, hhr⟩, ⟨fun h => (by cases h), hl, hhl⟩⟩
  · rintro ⟨m, hm, ⟨-, hredx, hheightx⟩, ⟨-, hredy, hheighty⟩⟩
    refine ⟨fun _ => by simp, ?_⟩
    cases d with
    | left =>
      exact ⟨⟨fun h => (by cases h), hredx, hredy⟩, ⟨m, hm, hheightx, hheighty⟩⟩
    | right =>
      exact ⟨⟨fun h => (by cases h), hredy, hredx⟩, ⟨m, hm, hheighty, hheightx⟩⟩

lemma Valid.weaken (h : Valid pc n t) : Valid .black n t := ⟨fun h => (by cases h), h.2⟩

lemma Valid.strengthen (h : Valid pc n t) (hred : isRed t = false) : Valid .red n t :=
  ⟨fun _ => hred, h.2⟩

-- == trees with a hole

/-- The colour of the node above a hole; the root must be black as if below
a red node. -/
def holeColor : RbCtx a → Color
  | [] => .red
  | f :: _ => f.attr

/-- What is around a hole is valid, if the hole has black height `n`. -/
def CtxOk : RbCtx a → Nat → Prop
  | [], _ => True
  | f :: ctx, n =>
    match f.attr with
    | .red => Valid .red n f.sib ∧ holeColor ctx = .black ∧ CtxOk ctx n
    | .black => Valid .black n f.sib ∧ CtxOk ctx (n + 1)

lemma ctxOk_red : CtxOk (⟨d, p, .red, y⟩ :: ctx) n
      ↔ Valid .red n y ∧ holeColor ctx = .black ∧ CtxOk ctx n := Iff.rfl

lemma ctxOk_black : CtxOk (⟨d, p, .black, y⟩ :: ctx) n
      ↔ Valid .black n y ∧ CtxOk ctx (n + 1) := Iff.rfl

lemma valid_plug_iff :
    (∃ n, Valid .red n (ctx.plug t)) ↔ ∃ n, CtxOk ctx n ∧ Valid (holeColor ctx) n t := by
  induction ctx generalizing t with
  | nil => exact ⟨fun ⟨n, h⟩ => ⟨n, trivial, h⟩, fun ⟨n, _, h⟩ => ⟨n, h⟩⟩
  | cons f ctx ih =>
    obtain ⟨d, p, c, y⟩ := f
    rw [Ctx.plug_near, ih]
    constructor
    · rintro ⟨n, hctx, hvalid⟩
      cases c with
      | red =>
        obtain ⟨hc, hx, hy⟩ := valid_red.mp hvalid
        exact ⟨n, ctxOk_red.mpr ⟨hy, hc, hctx⟩, hx⟩
      | black =>
        obtain ⟨m, rfl, hx, hy⟩ := valid_black.mp hvalid
        exact ⟨m, ctxOk_black.mpr ⟨hy, hctx⟩, hx⟩
    rintro ⟨n, hctx, hvalid⟩
    cases c with
    | red =>
      obtain ⟨hy, hc, hctx⟩ := ctxOk_red.mp hctx
      exact ⟨n, hctx, valid_red.mpr ⟨hc, hvalid, hy⟩⟩
    | black =>
      obtain ⟨hy, hctx⟩ := ctxOk_black.mp hctx
      exact ⟨n + 1, hctx, valid_black.mpr ⟨n, rfl, hvalid, hy⟩⟩

lemma Valid.blacken {c : Color} (h : Valid .black n (.branch d p c x y)) :
    ∃ m, Valid .red m (.branch d p .black x y) := by
  cases c with
  | red =>
    obtain ⟨-, hx, hy⟩ := valid_red.mp h
    exact ⟨n + 1, valid_black.mpr ⟨n, rfl, hx.weaken, hy.weaken⟩⟩
  | black => exact ⟨n, h.strengthen (by simp)⟩

-- == reading colours

lemma isRedNode_eq {s : Rb a} (h : Repr s (ctx.plug t)) :
    isRedNode s (addr t.root?) = some (isRed t) := by
  cases t with
  | leaf => exact if_pos rfl
  | node l p c r =>
    have h' : Repr s (ctx.plug (.branch .left p c l r)) := h
    show (if p = 0 then some false else (s.heap p).map rbIsRed) = _
    rw [if_neg h'.isAddr.1, h'.heap_eq, Option.map_some, rbIsRed_mk _ _ _ _ _ h.isLink_parent]
    rfl

lemma isBlackOrNull_eq {s : Rb a} (h : Repr s (ctx.plug t)) :
    isBlackOrNull s (addr t.root?) = some (!isRed t) := by
  cases t with
  | leaf => exact if_pos rfl
  | node l p c r =>
    have h' : Repr s (ctx.plug (.branch .left p c l r)) := h
    show (if p = 0 then some true else (s.heap p).map rbIsBlack) = _
    rw [if_neg h'.isAddr.1, h'.heap_eq, Option.map_some, rbIsBlack_mk _ _ _ _ _ h.isLink_parent]
    cases c <;> rfl

open Option List PtrTree Ctx

variable {a : WordSize}
variable {fuel : Nat} {s : Rb a} {t : RbTree a}

lemma rbFar_spec (d : Dir) (fuel : Nat) : ∀ {ctx : RbCtx a}
    {t : RbTree a} {p : Word a}, Repr s (ctx.plug t) → t.root? = some p →
    t.size ≤ fuel →
    ∃ ctx' n c x, t = Ctx.plug ctx' (.branch d n c .leaf x) ∧
      (∀ f ∈ ctx', f.dir = d) ∧ rbFar d s fuel p = some n := by
  induction fuel with
  | zero =>
    intro ctx t p _ hroot hfuel
    obtain ⟨c, x, y, rfl⟩ := eq_branch d hroot
    rw [size_branch] at hfuel
    omega
  | succ fuel ih =>
    intro ctx t p h hroot hfuel
    obtain ⟨c, x, y, rfl⟩ := eq_branch d hroot
    rw [size_branch] at hfuel
    rw [rbFar, h.heap_eq, bind_eq_bind, bind_some, child_near]
    cases hx : x.root? with
    | none =>
      obtain rfl := eq_leaf_of_root? hx
      exact ⟨[], p, c, y, rfl, by simp, if_pos rfl⟩
    | some q =>
      have hq : Repr s (plug (⟨d, p, c, y⟩ :: ctx) x) := h
      have hq0 := (hq.isAddr_root hx).1
      obtain ⟨ctx', n, c', z, rfl, hdir, hrun⟩ := ih hq hx (by omega)
      refine ⟨ctx' ++ [⟨d, p, c, y⟩], n, c', z, ?_, ?_, ?_⟩
      · rw [plug_append]
        rfl
      · intro f hf
        rcases List.mem_append.mp hf with hf | hf
        · exact hdir f hf
        · rw [mem_singleton.mp hf]
      · rw [addr_some, if_neg hq0, hrun]

lemma rbFar_head (d : Dir) {ctx : RbCtx a} {p : Word a} (h : Repr s (ctx.plug t))
    (hroot : t.root? = some p) (hfuel : t.size ≤ fuel) :
    rbFar d s fuel p = (d.orient t.toList).head? := by
  obtain ⟨ctx', n, c, x, rfl, hdir, hrun⟩ := rbFar_spec d fuel h hroot hfuel
  obtain ⟨rest, hrest⟩ := orient_plug hdir
  have hnil : d.orient ([] : List (Word a)) = [] := by cases d <;> rfl
  rw [hrun, hrest, orient_branch, toList_leaf, hnil]
  rfl

lemma rbClimb_spec (d : Dir) (fuel : Nat) : ∀ {ctx : RbCtx a}
    {t : RbTree a} {p : Word a}, Repr s (ctx.plug t) → t.root? = some p →
    ctx.length < fuel →
    rbClimb d s fuel p = some (addr (ctx.beyond d).head?) := by
  induction fuel with
  | zero => intro ctx t p _ _ hfuel; omega
  | succ fuel ih =>
    intro ctx t p h hroot hfuel
    obtain ⟨c, x, y, rfl⟩ := eq_branch d hroot
    rw [rbClimb, h.heap_eq, bind_eq_bind, bind_some, rbParent_mk d p _ _ c h.isLink_parent]
    cases ctx with
    | nil => exact if_pos rfl
    | cons f ctx =>
      obtain ⟨e, q, b, o⟩ := f
      rw [plug_near] at h
      rw [parent_cons, addr_some, if_neg h.isAddr.1, h.heap_eq, bind_some]
      rw [length_cons] at hfuel
      rcases Dir.eq_or_eq_opp e d with rfl | rfl
      · rw [child_near, root?_branch, addr_some, if_pos rfl,
          ih h (root?_branch ..) (by omega), Ctx.beyond, if_pos rfl]
      have hne := sibling_ne h (root?_branch ..)
      have hfar := child_far d.opp q (Ctx.parent ctx) (some p) o.root? b
      rw [Dir.opp_opp] at hfar
      rw [root?_branch, hfar, if_neg hne.symm, Ctx.beyond, if_neg (by cases d <;> simp [Dir.opp])]
      rfl

lemma rbNeighbour_spec {d : Dir} {ctx : RbCtx a} {p : Word a} {c : Color} {x y : RbTree a}
    (h : Repr s (ctx.plug (.branch d p c x y))) (hfuel : x.size ≤ fuel) (hctx : ctx.length < fuel) :
    rbNeighbour d fuel s p = some (addr (d.opp.orient x.toList ++ ctx.beyond d).head?) := by
  have hself : addr ctx.parent ≠ p := by
    cases hpar : ctx.parent with
    | none => exact fun e => h.isAddr.1 e.symm
    | some q =>
      rintro rfl
      exact h.fresh.2.2 (mem_of_parent hpar)
  rw [rbNeighbour, h.heap_eq, bind_eq_bind, bind_some,
    rbParent_mk d p _ _ c h.isLink_parent, if_neg hself, child_near]
  cases hx : x.root? with
  | none =>
    obtain rfl := eq_leaf_of_root? hx
    have hnil : d.opp.orient (leaf : RbTree a).toList = [] := by
      cases d <;> rfl
    rw [if_neg (by simp [addr]), hnil, rbClimb_spec d fuel h (root?_branch ..) hctx]
    rfl
  | some q =>
    have hsub : Repr s (plug (⟨d, p, c, y⟩ :: ctx) x) := h
    obtain ⟨-, n, -, -, -, -, hrun⟩ := rbFar_spec d.opp fuel hsub hx hfuel
    have hhead := rbFar_head d.opp hsub hx hfuel
    rw [addr_some, if_pos (hsub.isAddr_root hx).1, hrun, List.head?_append, ← hhead, hrun]
    rfl

-- == the theorem

structure Walks (fuel : Nat) (s : Rb a) (l : List (Word a)) : Prop where
  first : rbFirst fuel s = some (addr l.head?)
  last : rbLast fuel s = some (addr l.getLast?)
  next : ∀ l1 p l2, l = l1 ++ p :: l2 → rbNext fuel s p = some (addr l2.head?)
  prev : ∀ l1 p l2, l = l1 ++ p :: l2 → rbPrev fuel s p = some (addr l1.getLast?)

lemma rbEnd_spec (d : Dir) (h : Repr s t) (hfuel : t.size ≤ fuel) :
    rbEnd d fuel s = some (addr (d.orient t.toList).head?) := by
  unfold rbEnd
  rw [h.root]
  cases hroot : t.root? with
  | none =>
    obtain rfl := eq_leaf_of_root? hroot
    cases d <;> exact if_pos rfl
  | some p =>
    have hp : Repr s (plug [] t) := h
    obtain ⟨-, n, -, -, -, -, hrun⟩ := rbFar_spec d fuel hp hroot hfuel
    have hhead := rbFar_head d hp hroot hfuel
    rw [addr_some, if_neg (hp.isAddr_root hroot).1, ← hhead, hrun]
    rfl

lemma walks_of_repr (h : Repr s t) (hfuel : t.size < fuel) : Walks fuel s t.toList := by
  have hpos : ∀ (d : Dir) (l1 l2 : List (Word a)) (p : Word a), t.toList = l1 ++ p :: l2 →
      ∃ (ctx : RbCtx a) (c : Color) (x y : RbTree a), t = ctx.plug (.branch d p c x y) ∧
        rbNeighbour d fuel s p = some (addr (d.opp.orient x.toList ++ ctx.beyond d).head?) := by
    intro d l1 l2 p hl
    obtain ⟨ctx, c, x, y, rfl⟩ := exists_of_mem d (t := t) (p := p) (by rw [hl]; simp)
    have hlen := length_le_size ctx (.branch d p c x y)
    rw [size_branch] at hlen
    exact ⟨ctx, c, x, y, rfl, rbNeighbour_spec h (by omega) (by omega)⟩
  refine ⟨rbEnd_spec .left h (by omega), ?_, ?_, ?_⟩
  · rw [rbLast, rbEnd_spec .right h (by omega), Dir.orient, List.head?_reverse]
  · intro l1 p l2 hl
    obtain ⟨ctx, c, x, y, rfl, hrun⟩ := hpos .right l1 l2 p hl
    obtain ⟨-, rfl⟩ := split_eq (c := c) (l := y) (r := x) h.nodup hl
    rw [rbNext, hrun, beyond_right]
    rfl
  · intro l1 p l2 hl
    obtain ⟨ctx, c, x, y, rfl, hrun⟩ := hpos .left l1 l2 p hl
    obtain ⟨rfl, -⟩ := split_eq h.nodup hl
    rw [rbPrev, hrun, beyond_left, Dir.opp, Dir.orient, ← reverse_append, List.head?_reverse]

end BoardStack.Rbtree
