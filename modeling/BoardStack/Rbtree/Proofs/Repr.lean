/-
Trees of pointers in the memory of lib/rbtree.c.

`Repr s t` says that the memory holds the tree `t` of addresses and colours
at the root. Everything the code does to a tree is then said on the tree:
a recolouring changes one attribute, a rotation one branch, at a position
`ctx` that is arbitrary. `Evolves` collects what all of these have in common,
that the order of the nodes and the memory outside the tree stay.
-/
import BoardStack.Rbtree.Basic

namespace BoardStack.Rbtree

open Base BitVec Option PtrTree Ctx

variable {a : WordSize}

-- == the packed parent word

inductive Color where
  | red
  | black
  deriving DecidableEq, Repr

def Color.bit : Color → Word a
  | .red => rbRed
  | .black => rbBlack

def IsAddr (p : Word a) : Prop := p ≠ 0 ∧ p &&& 3#_ = 0#_

instance (p : Word a) : Decidable (IsAddr p) := inferInstanceAs (Decidable (_ ∧ _))

/-- NULL or the address of a node, as a pointer. -/
abbrev addr (x : Option (Word a)) : Word a := x.getD 0

lemma addr_some (p : Word a) : addr (some p) = p := rfl

def IsLink (x : Option (Word a)) : Prop := addr x &&& 3#_ = 0#_

lemma isLink_none : IsLink (none : Option (Word a)) := by
  show (0 : Word a) &&& 3#_ = 0#_
  exact zero_and

lemma IsAddr.isLink {p : Word a} (h : IsAddr p) : IsLink (some p) := h.2

private lemma getLsbD_three (i : Nat) : (3#a.bits).getLsbD i = decide (i < 2) := by
  have hw : 2 ≤ a.bits := by cases a <;> decide
  rw [getLsbD_ofNat, show (3 : Nat) = 2 ^ 2 - 1 from rfl, Nat.testBit_two_pow_sub_one]
  by_cases hi : i < 2
  · simp [hi]
    omega
  · simp [hi]

private lemma getLsbD_one' (i : Nat) : (1#a.bits).getLsbD i = decide (i = 0) := by
  have hw : 0 < a.bits := by cases a <;> decide
  rw [getLsbD_one]
  by_cases hi : i = 0
  · simp [hi, hw]
  · simp [hi]

private lemma link_bit {x : Option (Word a)} (h : IsLink x) {i : Nat}
    (hi : i < 2) : (addr x).getLsbD i = false := by
  have hbit := congrArg (getLsbD · i) h
  simpa [getLsbD_three, hi] using hbit

private lemma color_bit (c : Color) (i : Nat) :
    (c.bit : Word a).getLsbD i = (decide (i = 0) && decide (c = .black)) := by
  cases c with
  | red =>
    show (0#a.bits).getLsbD i = _
    simp
  | black =>
    show (1#a.bits).getLsbD i = _
    rw [getLsbD_one']
    simp

def pack (x : Option (Word a)) (c : Color) : Word a := addr x ||| c.bit

variable {x : Option (Word a)}

/-- `rb_parent`. -/
lemma pack_parent (h : IsLink x) (c : Color) : pack x c &&& ~~~ 3#_ = addr x := by
  refine eq_of_getLsbD_eq fun i hi => ?_
  simp only [pack, getLsbD_and, getLsbD_or, getLsbD_not, getLsbD_three, color_bit]
  by_cases h2 : i < 2
  · simp [h2, link_bit h h2]
  · have h0 : i ≠ 0 := by omega
    simp [h2, h0, hi]

/-- `rb_color`. -/
lemma pack_color (h : IsLink x) (c : Color) : pack x c &&& 1#_ = c.bit := by
  refine eq_of_getLsbD_eq fun i _ => ?_
  simp only [pack, getLsbD_and, getLsbD_or, getLsbD_one', color_bit]
  by_cases h0 : i = 0
  · subst h0
    simp [link_bit h (i := 0) (by decide)]
  · simp [h0]

/-- `rb_set_parent`. -/
lemma pack_setParent (h : IsLink x) (c : Color) (y : Option (Word a)) :
    (pack x c &&& 3#_) ||| addr y = pack y c := by
  refine eq_of_getLsbD_eq fun i _ => ?_
  simp only [pack, getLsbD_and, getLsbD_or, getLsbD_three, color_bit]
  by_cases h2 : i < 2
  · simp [h2, link_bit h h2, Bool.or_comm]
  · have h0 : i ≠ 0 := by omega
    simp [h2, h0]

/-- `rb_set_red`. -/
lemma pack_setRed (h : IsLink x) (c : Color) : pack x c &&& ~~~ 1#_ = pack x .red := by
  refine eq_of_getLsbD_eq fun i hi => ?_
  simp only [pack, getLsbD_and, getLsbD_or, getLsbD_not, getLsbD_one', color_bit]
  by_cases h0 : i = 0
  · subst h0
    simp [link_bit h (i := 0) (by decide)]
  · simp [h0, hi]

lemma pack_red (x : Option (Word a)) : pack x .red = addr x := or_zero

/-- `rb_set_black`. -/
lemma pack_setBlack (x : Option (Word a)) (c : Color) : pack x c ||| 1#_ = pack x .black := by
  refine eq_of_getLsbD_eq fun i _ => ?_
  simp only [pack, getLsbD_or, getLsbD_one', color_bit]
  by_cases h0 : i = 0 <;> simp [h0]

/-- `rb_set_color`. -/
lemma pack_setColor (h : IsLink x) (c c' : Color) :
    (pack x c &&& ~~~ 1#_) ||| c'.bit = pack x c' := by
  rw [pack_setRed h, pack, pack, BitVec.or_assoc]
  congr 1
  exact zero_or

lemma bit_eq_zero_iff (c : Color) : (c.bit : Word a) = 0 ↔ c = .red := by
  cases c with
  | red => exact ⟨fun _ => rfl, fun _ => rfl⟩
  | black =>
    refine ⟨fun h => ?_, fun h => by cases h⟩
    have hbit := congrArg (getLsbD · 0) h
    simp [color_bit] at hbit

-- == one node

/-- The node the code stores for given links and colour. -/
def rbMk (_ : Word a) (par l r : Option (Word a)) (c : Color) : RbNode a :=
  ⟨pack par c, addr r, addr l⟩

abbrev rbMkDir (d : Dir) (p : Word a) (par near far : Option (Word a)) (c : Color) : RbNode a :=
  mkDir rbMk d p par near far c

section

variable (d : Dir) (p : Word a) (par near far x : Option (Word a)) (c : Color)

lemma child_near : (rbMkDir d p par near far c).child d = addr near := by
  cases d <;> rfl

lemma child_far : (rbMkDir d p par near far c).child d.opp = addr far := by
  cases d <;> rfl

lemma setChild_near : (rbMkDir d p par near far c).setChild d (addr x)
    = rbMkDir d p par x far c := by
  cases d <;> rfl

lemma setChild_far : (rbMkDir d p par near far c).setChild d.opp (addr x)
    = rbMkDir d p par near x c := by
  cases d <;> rfl

lemma parentColor_mk : (rbMkDir d p par near far c).rbParentColor = pack par c := by
  cases d <;> rfl

variable {par}

lemma rbParent_mk (h : IsLink par) : rbParent (rbMkDir d p par near far c) = addr par := by
  rw [rbParent, parentColor_mk, pack_parent h]

lemma rbColor_mk (h : IsLink par) : rbColor (rbMkDir d p par near far c) = c.bit := by
  rw [rbColor, parentColor_mk, pack_color h]

lemma rbIsRed_mk (h : IsLink par) : rbIsRed (rbMkDir d p par near far c) = decide (c = .red) := by
  rw [rbIsRed, rbColor_mk d p near far c h, Bool.eq_iff_iff, beq_iff_eq,
    bit_eq_zero_iff, decide_eq_true_iff]

lemma rbIsBlack_mk (h : IsLink par) :
    rbIsBlack (rbMkDir d p par near far c) = decide (c = .black) := by
  rw [rbIsBlack, rbColor_mk d p near far c h, Bool.eq_iff_iff, bne_iff_ne,
    Ne, bit_eq_zero_iff, decide_eq_true_iff]
  cases c <;> simp

lemma setPacked {w : Word a} {y : Option (Word a)} {c' : Color} (h : w = pack y c') :
    { rbMkDir d p par near far c with rbParentColor := w } = rbMkDir d p y near far c' := by
  subst h
  cases d <;> rfl

end

variable {s : Rb a}

lemma modify_eq {p : Word a} {n : RbNode a} (h : s.heap p = some n) (f : RbNode a → RbNode a) :
    s.modify p f = some (s.write p (f n)) := by
  rw [Rb.modify, h, map_some]

lemma heap_write_self (s : Rb a) (p : Word a) (n : RbNode a) :
    (s.write p n).heap p = some n := Function.update_self _ _ _

lemma heap_write_ne (s : Rb a) {p q : Word a} (n : RbNode a)
    (h : q ≠ p) : (s.write p n).heap q = s.heap q :=
  Function.update_of_ne h _ _

-- == trees in the memory

abbrev RbTree (a : WordSize) := PtrTree (Word a) Color

abbrev RbCtx (a : WordSize) := Ctx (Word a) Color

section

variable {t : RbTree a} {ctx : RbCtx a} {p : Word a} {x : Option (Word a)}

/-- A node outside a tree is written and the tree stays. -/
lemma hasTree_write (hp : p ∉ t.toList) (n : RbNode a) (ht : HasTree rbMk s.heap x t) :
    HasTree rbMk (s.write p n).heap x t :=
  hasTree_congr (fun _ hq => heap_write_ne s n fun e => hp (e ▸ hq)) ht

/-- So does what is around a hole. -/
lemma hasCtx_write (hp : ¬ Ctx.Mem p ctx) (n : RbNode a) (hc : HasCtx rbMk s.heap ctx x) :
    HasCtx rbMk (s.write p n).heap ctx x :=
  hasCtx_congr (fun _ hq => heap_write_ne s n fun e => hp (e ▸ hq)) hc

end

structure Repr (s : Rb a) (t : RbTree a) : Prop where
  root : s.rbNode = addr t.root?
  tree : HasTree rbMk s.heap none t
  nodup : t.toList.Nodup
  addr : ∀ q, q ∈ t.toList → IsAddr q

/-- One tree became another with the same nodes in the same order, and the
memory outside it stayed. -/
structure Evolves (s s' : Rb a) (t t' : RbTree a) : Prop where
  repr : Repr s' t'
  list : t'.toList = t.toList
  frame : ∀ q, q ∉ t.toList → s'.heap q = s.heap q

lemma Evolves.trans {s1 s2 s3 : Rb a} {t1 t2 t3 : RbTree a}
    (h1 : Evolves s1 s2 t1 t2) (h2 : Evolves s2 s3 t2 t3) :
    Evolves s1 s3 t1 t3 := by
  refine ⟨h2.repr, h2.list.trans h1.list, fun q hq => ?_⟩
  rw [h2.frame q (by rwa [h1.list]), h1.frame q hq]

variable {t : RbTree a}

lemma Evolves.refl (h : Repr s t) : Evolves s s t t := ⟨h, rfl, fun _ _ => rfl⟩

lemma addr_eq_zero_iff (h : ∀ q, q ∈ t.toList → IsAddr q) : addr t.root? = 0 ↔ t = .leaf := by
  cases t with
  | leaf => exact ⟨fun _ => rfl, fun _ => rfl⟩
  | node l p c r =>
    refine ⟨fun hz => ?_, fun hl => by cases hl⟩
    exact absurd hz (h p (by simp [PtrTree.toList])).1

section

variable {s : Rb a} {ctx : RbCtx a} {d : Dir} {p : Word a} {c : Color} {x y : RbTree a}

lemma Repr.isLink_parent (h : Repr s (ctx.plug t)) : IsLink ctx.parent := by
  cases hp : ctx.parent with
  | none => exact isLink_none
  | some q =>
    exact (h.addr q (mem_plug.mpr (.inr (mem_of_parent hp)))).isLink

lemma Repr.isAddr (h : Repr s (ctx.plug (.branch d p c x y))) : IsAddr p :=
  h.addr p (mem_plug.mpr (.inl (mem_branch.mpr (.inl rfl))))

lemma Repr.isAddr_root (h : Repr s (ctx.plug t)) (hroot : t.root? = some p) : IsAddr p :=
  h.addr p (mem_plug.mpr (.inl (mem_of_root? hroot)))

/-- The node at the position. -/
lemma Repr.heap_eq (h : Repr s (ctx.plug (.branch d p c x y))) :
    s.heap p = some (rbMkDir d p ctx.parent x.root? y.root? c) :=
  (hasTree_branch.mp (hasTree_plug.mp h.tree).2).1

lemma Repr.near (h : Repr s (ctx.plug (.branch d p c x y))) :
    Repr s (Ctx.plug (⟨d, p, c, y⟩ :: ctx) x) := h

lemma Repr.far (h : Repr s (ctx.plug (.branch d p c x y))) :
    Repr s (Ctx.plug (⟨d.opp, p, c, x⟩ :: ctx) y) := by
  rwa [plug_far]

/-- It is nowhere else in the tree. -/
lemma Repr.fresh (h : Repr s (ctx.plug (.branch d p c x y))) :
    p ∉ x.toList ∧ p ∉ y.toList ∧ ¬ Ctx.Mem p ctx := by
  have hnd := nodup_branch.mp (nodup_of_plug h.nodup)
  exact ⟨hnd.1, hnd.2.1, not_mem_of_nodup h.nodup (mem_branch.mpr (.inl rfl))⟩

lemma toList_recolor (ctx : RbCtx a) (d : Dir) (p : Word a) (c c' : Color) (x y : RbTree a) :
    (ctx.plug (.branch d p c' x y)).toList = (ctx.plug (.branch d p c x y)).toList := by
  rw [toList_plug, toList_plug]
  cases d <;> rfl

section

variable (h : Repr s (ctx.plug (.branch d p c x y)))

include h

/-- One node gets another colour. -/
lemma evolves_recolor (c' : Color) :
    Evolves s (s.write p (rbMkDir d p ctx.parent x.root? y.root? c'))
      (ctx.plug (.branch d p c x y)) (ctx.plug (.branch d p c' x y)) := by
  have hlist := toList_recolor ctx d p c c' x y
  obtain ⟨hx, hy, hctx⟩ := h.fresh
  obtain ⟨hc, ht⟩ := hasTree_plug.mp h.tree
  obtain ⟨-, htx, hty⟩ := hasTree_branch.mp ht
  refine ⟨⟨?_, ?_, by rw [hlist]; exact h.nodup,
    fun q hq => h.addr q (by rwa [hlist] at hq)⟩, hlist, ?_⟩
  · show s.rbNode = _
    rw [h.root, root?_plug, root?_plug, root?_branch, root?_branch]
  · refine hasTree_plug.mpr ⟨?_, hasTree_branch.mpr ⟨?_, ?_, ?_⟩⟩
    · rw [root?_branch] at hc ⊢
      exact hasCtx_write hctx _ hc
    · exact heap_write_self s p _
    · exact hasTree_write hx _ htx
    · exact hasTree_write hy _ hty
  · intro q hq
    refine heap_write_ne s _ fun e => hq ?_
    rw [e]
    exact mem_plug.mpr (.inl (mem_branch.mpr (.inl rfl)))

lemma rbSetBlack_spec :
    ∃ s', rbSetBlack s p = some s' ∧ Evolves s s'
      (ctx.plug (.branch d p c x y)) (ctx.plug (.branch d p .black x y)) := by
  refine ⟨_, modify_eq h.heap_eq _, ?_⟩
  rw [setPacked d p _ _ c (by rw [parentColor_mk]; exact pack_setBlack ctx.parent c)]
  exact evolves_recolor h .black

lemma rbSetRed_spec :
    ∃ s', rbSetRed s p = some s' ∧ Evolves s s'
      (ctx.plug (.branch d p c x y)) (ctx.plug (.branch d p .red x y)) := by
  refine ⟨_, modify_eq h.heap_eq _, ?_⟩
  rw [setPacked d p _ _ c (by rw [parentColor_mk]; exact pack_setRed h.isLink_parent c)]
  exact evolves_recolor h .red

lemma rbSetColor_spec (c' : Color) :
    ∃ s', rbSetColor s p c'.bit = some s' ∧ Evolves s s'
      (ctx.plug (.branch d p c x y)) (ctx.plug (.branch d p c' x y)) := by
  refine ⟨_, modify_eq h.heap_eq _, ?_⟩
  rw [setPacked d p _ _ c (by rw [parentColor_mk]; exact pack_setColor h.isLink_parent c c')]
  exact evolves_recolor h c'

end

end

-- == sides

section

variable {s : Rb a} {ctx : RbCtx a} {d : Dir} {p g : Word a} {c : Color} {t u : RbTree a}

lemma sibling_ne (h : Repr s (ctx.plug (.branch d g c t u)))
    (ht : t.root? = some p) : addr u.root? ≠ p := by
  have hp : p ∈ t.toList := mem_of_root? ht
  cases hu : u.root? with
  | none =>
    exact fun e => (h.addr p (mem_plug.mpr (.inl (mem_branch.mpr (.inr (.inl hp)))))).1 e.symm
  | some q =>
    rintro rfl
    obtain ⟨-, -, -, -, hdisj⟩ := nodup_branch.mp (nodup_of_plug h.nodup)
    exact hdisj hp (mem_of_root? hu)

/-- Which child of `g` it is. -/
lemma side_eq (h : Repr s (ctx.plug (.branch d g c t u)))
    (ht : t.root? = some p) (par : Option (Word a)) :
    (if p = (rbMkDir d g par t.root? u.root? c).rbLeft then Dir.left else Dir.right) = d := by
  cases d with
  | left =>
    refine if_pos ?_
    show p = addr t.root?
    rw [ht, addr_some]
  | right => exact if_neg (fun e => sibling_ne h ht e.symm)

end

-- == relinking

variable {par : Option (Word a)}

/-- `if (x) rb_set_parent(x, y)`. -/
lemma rbSetParentIf_spec (ht : HasTree rbMk s.heap par t) (hpar : IsLink par)
    (hnd : t.toList.Nodup) (haddr : ∀ q, q ∈ t.toList → IsAddr q) (y : Option (Word a)) :
    ∃ s', rbSetParentIf s (addr t.root?) (addr y) = some s' ∧ HasTree rbMk s'.heap y t ∧
      (∀ q, q ∉ t.toList → s'.heap q = s.heap q) ∧
      s'.rbNode = s.rbNode := by
  cases t with
  | leaf => exact ⟨s, if_pos rfl, trivial, fun _ _ => rfl, rfl⟩
  | node l p c r =>
    obtain ⟨hnode, hl, hr⟩ := ht
    have hp : p ∈ (node l p c r).toList := by simp [PtrTree.toList]
    have hnd : (branch .left p c l r).toList.Nodup := hnd
    obtain ⟨hpl, hpr, -, -, -⟩ := nodup_branch.mp hnd
    refine ⟨s.write p (rbMk p y l.root? r.root? c), ?_, ⟨?_, ?_, ?_⟩, ?_, rfl⟩
    · show (if p = 0 then some s else rbSetParent s p (addr y)) = _
      rw [if_neg (haddr p hp).1, rbSetParent, modify_eq hnode]
      congr 2
      exact setPacked .left p _ _ c (pack_setParent hpar c y)
    · exact heap_write_self s p _
    · exact hasTree_write hpl _ hl
    · exact hasTree_write hpr _ hr
    · exact fun q hq => heap_write_ne s _ (fun e => hq (e ▸ hp))

variable {f : Frame (Word a) Color} {ctx : RbCtx a}

lemma parent_fresh (h : (Ctx.plug (f :: ctx) t).toList.Nodup) :
    f.ptr ∉ f.sib.toList ∧ ¬ Ctx.Mem f.ptr ctx := by
  exact ⟨(nodup_branch.mp (nodup_of_plug h)).2.1, not_mem_of_nodup h (mem_branch.mpr (.inl rfl))⟩

lemma hasCtx_relink (hc : HasCtx rbMk s.heap (f :: ctx) x)
    (hfresh : f.ptr ∉ f.sib.toList ∧ ¬ Ctx.Mem f.ptr ctx) (y : Option (Word a)) :
    HasCtx rbMk (s.write f.ptr (rbMkDir f.dir f.ptr (Ctx.parent ctx) y
      f.sib.root? f.attr)).heap (f :: ctx) y := by
  obtain ⟨-, hsib, hrest⟩ := hc
  refine ⟨heap_write_self s _ _, ?_, ?_⟩
  · exact hasTree_write hfresh.1 _ hsib
  · exact hasCtx_write hfresh.2 _ hrest

/-- The link is the one that leads to `x`. -/
lemma changeChild_cons {x : Word a} (d : Dir)
    (hnode : s.heap f.ptr = some (rbMkDir f.dir f.ptr par (some x) f.sib.root? f.attr))
    (hf : IsAddr f.ptr) (hx : x ≠ 0) (hout : x ∉ f.sib.toList) (y : Word a) :
    changeChild d s f.ptr x y = s.modify f.ptr (·.setChild f.dir y) := by
  unfold changeChild
  rw [if_neg hf.1, modify_eq hnode, modify_eq hnode]
  congr 2
  rcases Dir.eq_or_eq_opp f.dir d with hd | hd
  · rw [← hd, child_near, addr_some, if_pos rfl]
  obtain rfl : d = f.dir.opp := by rw [hd, Dir.opp_opp]
  rw [child_far, Dir.opp_opp, if_neg]
  intro hsame
  cases hsib : f.sib.root? with
  | none =>
    rw [hsib] at hsame
    exact hx hsame.symm
  | some z =>
    rw [hsib] at hsame
    obtain rfl : z = x := hsame
    exact hout (mem_of_root? hsib)

/-- The link to `x` now leads to `y`. -/
lemma changeChild_spec {x : Word a} (d : Dir) (hc : HasCtx rbMk s.heap ctx (some x))
    (hroot : s.rbNode = addr (ctx.top (some x)))
    (hfresh : ∀ f ctx', ctx = f :: ctx' → f.ptr ∉ f.sib.toList ∧ ¬ Ctx.Mem f.ptr ctx')
    (haddr : ∀ q, Ctx.Mem q ctx → IsAddr q) (hx : x ≠ 0)
    (hout : ¬ Ctx.Mem x ctx) (y : Option (Word a)) :
    ∃ s', changeChild d s (addr ctx.parent) x (addr y) = some s' ∧
      HasCtx rbMk s'.heap ctx y ∧ s'.rbNode = addr (ctx.top y) ∧
      ∀ q, ctx.parent ≠ some q → s'.heap q = s.heap q := by
  cases ctx with
  | nil =>
    exact ⟨{ s with rbNode := addr y }, if_pos rfl, trivial, rfl, fun _ _ => rfl⟩
  | cons f ctx =>
    have hf : IsAddr f.ptr := haddr _ (Ctx.mem_cons.mpr (.inl rfl))
    refine ⟨s.write f.ptr (rbMkDir f.dir f.ptr (Ctx.parent ctx) y
      f.sib.root? f.attr), ?_, hasCtx_relink hc (hfresh f ctx rfl) y,
      hroot, ?_⟩
    · rw [parent_cons, addr_some, changeChild_cons d hc.1 hf hx
        (fun hm => hout (Ctx.mem_cons.mpr (.inr (.inl hm)))),
        modify_eq hc.1, ← setChild_near f.dir f.ptr _ (some x)]
    · intro q hq
      refine heap_write_ne s _ fun e => hq ?_
      rw [e]
      rfl

-- == rotations

lemma rbSetParent_mk {d : Dir} {p : Word a} {par x y : Option (Word a)} {c : Color}
    (h : s.heap p = some (rbMkDir d p par x y c)) (hpar : IsLink par) (par' : Option (Word a)) :
    rbSetParent s p (addr par') = some (s.write p (rbMkDir d p par' x y c)) := by
  rw [rbSetParent, modify_eq h]
  congr 2
  refine setPacked d p _ _ c ?_
  rw [parentColor_mk]
  exact pack_setParent hpar c _

lemma toList_rotate (ctx : RbCtx a) (d : Dir) (p q : Word a) (c c' : Color) (x y z : RbTree a) :
    (ctx.plug (.branch d q c' (.branch d p c x y) z)).toList
      = (ctx.plug (.branch d p c x (.branch d q c' y z))).toList := by
  rw [toList_plug, toList_plug]
  cases d <;> simp [branch, PtrTree.toList]

/-- A rotation is one of the tree, wherever it is. -/
lemma rbRotate_spec {d : Dir} {p q : Word a} {c c' : Color} {x y z : RbTree a}
    (h : Repr s (ctx.plug (.branch d p c x (.branch d q c' y z)))) :
    ∃ s', rbRotate d s p = some s' ∧ Evolves s s' (ctx.plug (.branch d p c x (.branch d q c' y z)))
      (ctx.plug (.branch d q c' (.branch d p c x y) z)) := by
  have hlist := toList_rotate ctx d p q c c' x y z
  -- the same tree seen from `q`
  have hq := h.far
  obtain ⟨hpx, hpq, hpctx⟩ := h.fresh
  obtain ⟨hqy, hqz, hqctx⟩ := hq.fresh
  rw [Ctx.mem_cons] at hqctx
  push Not at hqctx
  obtain ⟨hqp, hqx, hqctx⟩ := hqctx
  rw [mem_branch] at hpq
  push Not at hpq
  obtain ⟨-, hpy, hpz⟩ := hpq
  have hnodup := nodup_branch.mp (nodup_of_plug h.nodup)
  have hnodupq := nodup_branch.mp hnodup.2.2.2.1
  -- nothing below is around
  have hctx : ∀ r, r = p ∨ r = q ∨ r ∈ x.toList ∨ r ∈ y.toList ∨
      r ∈ z.toList → ¬ Ctx.Mem r ctx := by
    intro r hr
    refine not_mem_of_nodup h.nodup ?_
    rw [mem_branch, mem_branch]
    rcases hr with hr | hr | hr | hr | hr <;> simp [hr]
  have hparent : ∀ r, Ctx.parent ctx = some r → Ctx.Mem r ctx := fun r => mem_of_parent
  obtain ⟨hc, ht⟩ := hasTree_plug.mp h.tree
  rw [root?_branch] at hc
  obtain ⟨-, htx, htq⟩ := hasTree_branch.mp ht
  obtain ⟨-, hty, htz⟩ := hasTree_branch.mp htq
  have haddr : ∀ r, r ∈ (plug ctx (.branch d p c x
      (.branch d q c' y z))).toList → IsAddr r := h.addr
  have hlink := h.isLink_parent
  have hpaddr : IsAddr p := h.isAddr
  have hqaddr : IsAddr q := hq.isAddr
  -- node->right = right->left
  let s1 := s.write p (rbMkDir d p ctx.parent x.root? y.root? c)
  have hty1 : HasTree rbMk s1.heap (some q) y := hasTree_write hpy _ hty
  -- rb_set_parent(right->left, node)
  obtain ⟨s2, hrun2, hty2, hframe2, hroot2⟩ := rbSetParentIf_spec hty1
    hqaddr.isLink hnodupq.2.2.1 (fun r hr => haddr r (by
      simp [mem_plug, mem_branch, hr])) (some p)
  -- right->left = node; rb_set_parent(right, parent)
  have hheapq : s2.heap q = some (rbMkDir d q (some p) y.root? z.root? c') := by
    rw [hframe2 q hqy, heap_write_ne s _ hqp, hq.heap_eq]
    rfl
  let s3 := s2.write q (rbMkDir d q (some p) (some p) z.root? c')
  let s4 := s3.write q (rbMkDir d q ctx.parent (some p) z.root? c')
  have hframe4 : ∀ r, r ≠ q → s4.heap r = s2.heap r := by
    intro r hr
    rw [heap_write_ne s3 _ hr, heap_write_ne s2 _ hr]
  have hctx4 : HasCtx rbMk s4.heap ctx (some p) := by
    refine hasCtx_congr (fun r hr => ?_) hc
    rw [hframe4 r (fun e => hqctx (e ▸ hr)), hframe2 r (fun hy => hctx r (by simp [hy]) hr),
      heap_write_ne s _ (fun e : r = p => hpctx (e ▸ hr))]
  -- the parent's link
  obtain ⟨s5, hrun5, hctx5, hroot5, hframe5⟩ := changeChild_spec (s := s4) d hctx4 (by
      show s2.rbNode = _
      rw [hroot2]
      show s.rbNode = _
      rw [h.root, root?_plug, root?_branch])
    (fun f ctx' he => parent_fresh (t := .branch d p c x (.branch d q c' y z)) (he ▸ h.nodup))
    (fun r hr => haddr r (mem_plug.mpr (.inr hr))) hpaddr.1 hpctx
    (some q)
  have hne : ∀ r, (r = p ∨ r = q ∨ r ∈ x.toList ∨ r ∈ y.toList ∨
      r ∈ z.toList) → ctx.parent ≠ some r := fun r hr he => hctx r hr (hparent r he)
  have hheapp : s5.heap p = some (rbMkDir d p ctx.parent x.root? y.root? c) := by
    rw [hframe5 p (hne p (.inl rfl)), hframe4 p hqp.symm, hframe2 p hpy]
    exact heap_write_self s p _
  -- rb_set_parent(node, right)
  let s6 := s5.write p (rbMkDir d p (some q) x.root? y.root? c)
  have hframe6 : ∀ r, r ≠ p → r ≠ q → r ∉ y.toList →
      ctx.parent ≠ some r → s6.heap r = s.heap r := by
    intro r hrp hrq hry hrc
    rw [heap_write_ne s5 _ hrp, hframe5 r hrc, hframe4 r hrq, hframe2 r hry, heap_write_ne s _ hrp]
  have hrun : rbRotate d s p = some s6 := by
    have e1 : s.modify p (·.setChild d.opp (addr y.root?)) = some s1 := by
      rw [modify_eq h.heap_eq, setChild_far]
    have e3 : s2.modify q (·.setChild d p) = some s3 := by
      rw [modify_eq hheapq]
      congr 2
      exact setChild_near d q _ _ _ (some p) c'
    have e4 : rbSetParent s3 q (addr ctx.parent) = some s4 :=
      rbSetParent_mk (heap_write_self s2 q _) hpaddr.isLink ctx.parent
    have e6 : rbSetParent s5 p q = some s6 := rbSetParent_mk hheapp hlink (some q)
    unfold rbRotate
    simp only [h.heap_eq, root?_branch, child_far, addr_some,
      rbParent_mk d p _ _ c hlink, bind_eq_bind, bind_some,
      hq.heap_eq, child_near, e1]
    rw [addr_some] at hrun2 hrun5
    simp only [hrun2, e3, e4, hrun5, e6, bind_some]
  refine ⟨s6, hrun, ⟨⟨?_, ?_, by rw [hlist]; exact h.nodup,
    fun r hr => h.addr r (by rwa [hlist] at hr)⟩, hlist, ?_⟩⟩
  · rw [root?_plug, root?_branch]
    exact hroot5
  · refine hasTree_plug.mpr ⟨?_, hasTree_branch.mpr ⟨?_, hasTree_branch.mpr ⟨?_, ?_, ?_⟩, ?_⟩⟩
    · rw [root?_branch]
      exact hasCtx_write hpctx _ hctx5
    · rw [root?_branch, heap_write_ne s5 _ hqp, hframe5 q (hne q (by simp))]
      exact heap_write_self s3 q _
    · exact heap_write_self s5 p _
    · refine hasTree_congr (fun r hr => ?_) htx
      refine hframe6 r (fun e => hpx (e ▸ hr)) (fun e => hqx (e ▸ hr))
        (fun hry => ?_) (hne r (by simp [hr]))
      exact hnodup.2.2.2.2 hr (mem_branch.mpr (by simp [hry]))
    · refine hasTree_congr (fun r hr => ?_) hty2
      rw [heap_write_ne s5 _ (fun e : r = p => hpy (e ▸ hr)), hframe5 r (hne r (by simp [hr])),
        hframe4 r (fun e => hqy (e ▸ hr))]
    · refine hasTree_congr (fun r hr => ?_) htz
      refine hframe6 r (fun e => hpz (e ▸ hr)) (fun e => hqz (e ▸ hr))
        (fun hry => hnodupq.2.2.2.2 hry hr) (hne r (by simp [hr]))
  · intro r hr
    rw [mem_plug, mem_branch, mem_branch] at hr
    push Not at hr
    refine hframe6 r hr.1.1 hr.1.2.2.1 hr.1.2.2.2.1 fun e => ?_
    exact hr.2 (hparent r e)

end BoardStack.Rbtree
