/-
The red-black tree as an ordered sequence.

`rb_link_node` with `rb_insert_color` at any empty child position adds one
node to the sequence there, `rb_erase` takes one out, the tree stays
balanced, and the four walking functions read the sequence off.
-/
import BoardStack.Rbtree.Proofs.Erase

namespace BoardStack.Rbtree

open Base List PtrTree Ctx

variable {a : WordSize}

/-- An empty child position of a tree with the order `l`: the parent, the
side, and the nodes before and after it. The root link of an empty tree has
no parent, and its side says nothing. -/
inductive EmptyLink (s : Rb a) (l : List (Word a)) :
    Word a → Dir → List (Word a) → List (Word a) → Prop
  | root (hl : l = []) : EmptyLink s l 0 .left [] []
  | left {l₁ l₂ : List (Word a)} {q : Word a} {x : RbNode a}
      (hl : l = l₁ ++ q :: l₂) (hq : s.heap q = some x)
      (hx : x.rbLeft = 0) : EmptyLink s l q .left l₁ (q :: l₂)
  | right {l₁ l₂ : List (Word a)} {q : Word a} {x : RbNode a}
      (hl : l = l₁ ++ q :: l₂) (hq : s.heap q = some x)
      (hx : x.rbRight = 0) : EmptyLink s l q .right (l₁ ++ [q]) l₂

variable {before after : List (Word a)}

lemma exists_ctx_of_emptyLink {s : Rb a} {t : RbTree a} {parent : Word a} {d : Dir}
    (h : Repr s t) (hlink : EmptyLink s t.toList parent d before after) :
    ∃ ctx : RbCtx a, t = ctx.plug .leaf ∧ addr ctx.parent = parent ∧
      linkSide ctx = d ∧ ctx.before = before ∧ ctx.after = after := by
  cases hlink with
  | root hl =>
    cases t with
    | leaf => exact ⟨[], rfl, rfl, rfl, rfl, rfl⟩
    | node l p c r => simp [PtrTree.toList] at hl
  | left hl hq hx =>
    obtain ⟨ctx, c, l, r, rfl⟩ := exists_of_mem .left (t := t) (p := parent) (by rw [hl]; simp)
    rw [h.heap_eq, Option.some.injEq] at hq
    subst hq
    obtain rfl : l = .leaf := (addr_eq_zero_iff (fun q hq => h.addr q
      (mem_plug.mpr (.inl (mem_branch.mpr (.inr (.inl hq))))))).mp hx
    obtain ⟨rfl, rfl⟩ := split_eq h.nodup hl
    exact ⟨⟨.left, parent, c, r⟩ :: ctx, rfl, rfl, rfl, (append_nil _).symm, rfl⟩
  | right hl hq hx =>
    obtain ⟨ctx, c, l, r, rfl⟩ := exists_of_mem .left (t := t) (p := parent) (by rw [hl]; simp)
    rw [h.heap_eq, Option.some.injEq] at hq
    subst hq
    obtain rfl : r = .leaf := (addr_eq_zero_iff (fun q hq => h.addr q
      (mem_plug.mpr (.inl (mem_branch.mpr (.inr (.inr hq))))))).mp hx
    obtain ⟨rfl, rfl⟩ := split_eq h.nodup hl
    exact ⟨⟨.right, parent, c, l⟩ :: ctx, rfl, rfl, rfl, (append_assoc _ _ _).symm, rfl⟩

/-- The memory holds a balanced tree with the order `l`. -/
def IsTree (s : Rb a) (l : List (Word a)) : Prop :=
  ∃ t : RbTree a, Repr s t ∧ RedBlack t ∧ t.toList = l

/-- The memory holds a balanced tree with the order `l`, and the walking
functions follow it. -/
structure Holds (fuel : Nat) (s : Rb a) (l : List (Word a)) : Prop where
  tree : IsTree s l
  walks : Walks fuel s l

section

variable {s s' : Rb a} {l l₁ l₂ : List (Word a)} {fuel : Nat} {p n : Word a}

lemma IsTree.nodup (h : IsTree s l) : l.Nodup := by
  obtain ⟨t, ht, -, rfl⟩ := h
  exact ht.nodup

lemma IsTree.isAddr (h : IsTree s l) (hp : p ∈ l) : IsAddr p := by
  obtain ⟨t, ht, -, rfl⟩ := h
  exact ht.addr p hp

lemma IsTree.exists_node (h : IsTree s l) (hp : p ∈ l) : ∃ x, s.heap p = some x := by
  obtain ⟨t, ht, -, rfl⟩ := h
  obtain ⟨ctx, c, x, y, rfl⟩ := exists_of_mem .left hp
  exact ⟨_, ht.heap_eq⟩

lemma IsTree.congr (h : IsTree s l) (hroot : s'.rbNode = s.rbNode)
    (hheap : ∀ q, q ∈ l → s'.heap q = s.heap q) : IsTree s' l := by
  obtain ⟨t, ht, hrb, rfl⟩ := h
  exact ⟨t, ⟨hroot.trans ht.root, hasTree_congr hheap ht.tree, ht.nodup, ht.addr⟩, hrb, rfl⟩

lemma isTree_nil : IsTree s [] ↔ s.rbNode = 0 := by
  constructor
  · rintro ⟨t, ht, -, hl⟩
    cases t with
    | leaf => exact ht.root
    | node l p c r => simp [PtrTree.toList] at hl
  · intro hroot
    refine ⟨.leaf, ⟨hroot, trivial, nodup_nil, fun q hq => ?_⟩, ?_, rfl⟩
    · cases hq
    · exact ⟨rfl, trivial, 0, rfl⟩

lemma IsTree.walks (h : IsTree s l) (hfuel : l.length < fuel) : Walks fuel s l := by
  obtain ⟨t, ht, -, rfl⟩ := h
  exact walks_of_repr ht (by rwa [size_eq_length])

lemma IsTree.holds (h : IsTree s l) (hfuel : l.length < fuel) : Holds fuel s l :=
  ⟨h, h.walks hfuel⟩

lemma IsTree.emptyLink_last (h : IsTree s l) :
    EmptyLink s l (addr l.getLast?) (if l = [] then .left else .right) l [] := by
  rcases eq_nil_or_concat l with rfl | ⟨l₁, p, rfl⟩
  · exact .root rfl
  rw [concat_eq_append] at h ⊢
  obtain ⟨t, ht, -, hl⟩ := h
  obtain ⟨ctx, c, x, y, rfl⟩ := exists_of_mem .left (t := t) (p := p) (by rw [hl]; simp)
  obtain ⟨-, hnil⟩ := split_eq ht.nodup hl
  obtain ⟨hy, -⟩ := append_eq_nil_iff.mp hnil.symm
  have hleaf : addr y.root? = 0 := by
    cases y with
    | leaf => rfl
    | node l p c r => simp [PtrTree.toList] at hy
  rw [List.getLast?_concat, addr_some, if_neg (by simp)]
  exact .right rfl ht.heap_eq hleaf

lemma IsTree.insert (h : IsTree s l) (hfuel : l.length < fuel) {parent : Word a} {d : Dir}
    {old : RbNode a} (hlink : EmptyLink s l parent d before after)
    (hn : IsAddr n) (hold : s.heap n = some old) (hnew : n ∉ l) :
    ∃ s₁ s₂, rbLinkNode s n parent d = some s₁ ∧ rbInsertColor fuel s₁ n = some s₂ ∧
      IsTree s₂ (before ++ n :: after) ∧
      ∀ q, q ≠ n → q ∉ l → s₂.heap q = s.heap q := by
  obtain ⟨t, ht, hrb, rfl⟩ := h
  obtain ⟨ctx, rfl, rfl, rfl, rfl, rfl⟩ := exists_ctx_of_emptyLink ht hlink
  have hlen := length_le_size ctx (.leaf : RbTree a)
  rw [size_eq_length (ctx.plug .leaf)] at hlen
  obtain ⟨s₁, hs₁, h1, hframe1⟩ := rbLinkNode_spec ht hn hold hnew
  obtain ⟨s₂, t2, hs₂, hev, hrb2⟩ := rbInsertColor_spec fuel (by omega) h1 hrb
  have hlist : t2.toList = ctx.before ++ n :: ctx.after := by
    rw [hev.list, toList_plug_branch]
    simp
  refine ⟨s₁, s₂, hs₁, hs₂, ⟨t2, hev.repr, hrb2, hlist⟩, ?_⟩
  intro q hqn hq
  rw [hev.frame q, hframe1 q hqn hq]
  intro hm
  rcases mem_plug.mp hm with hm | hm
  · exact hqn (by simpa [branch, PtrTree.toList] using hm)
  · exact hq (mem_plug.mpr (.inr hm))

lemma IsTree.erase (h : IsTree s l) (hfuel : l.length + 1 < fuel) (hp : p ∈ l) :
    ∃ s₁, rbErase fuel s p = some s₁ ∧ IsTree s₁ (l.erase p) ∧
      ∀ q, q ∉ l → s₁.heap q = s.heap q := by
  obtain ⟨t, ht, hrb, rfl⟩ := h
  rw [← size_eq_length] at hfuel
  obtain ⟨s₁, t1, hs₁, herased⟩ := rbErase_spec ht hrb hp hfuel
  exact ⟨s₁, hs₁, ⟨t1, herased.repr, herased.redBlack, herased.list⟩, herased.frame⟩

lemma IsTree.replace {old : RbNode a} (h : IsTree s (l₁ ++ p :: l₂)) (hn : IsAddr n)
    (hold : s.heap n = some old) (hnew : n ∉ l₁ ++ p :: l₂) :
    ∃ s₁, rbReplaceNode s p n = some s₁ ∧ IsTree s₁ (l₁ ++ n :: l₂) ∧
      ∀ q, q ≠ n → (q = p ∨ q ∉ l₁ ++ p :: l₂) → s₁.heap q = s.heap q := by
  obtain ⟨t, ht, hrb, hl⟩ := h
  obtain ⟨ctx, c, l, r, rfl⟩ := exists_of_mem .left (t := t) (p := p) (by rw [hl]; simp)
  rw [← hl] at hnew ⊢
  obtain ⟨rfl, rfl⟩ := split_eq ht.nodup hl
  obtain ⟨s₁, hs₁, hrepr, hframe⟩ := rbReplaceNode_spec ht hn hold hnew
  refine ⟨s₁, hs₁, ⟨_, hrepr, ?_, toList_plug_branch ctx n c l r⟩, hframe⟩
  -- the balance does not look at addresses
  obtain ⟨m, hctx, hvalid⟩ := valid_plug_iff.mp (redBlack_iff.mp hrb)
  refine redBlack_iff.mpr (valid_plug_iff.mpr ⟨m, hctx, ?_⟩)
  cases c with
  | red => exact valid_red.mpr (valid_red.mp hvalid)
  | black => exact valid_black.mpr (valid_black.mp hvalid)

end

/-- From any balanced tree, inserting at an empty child position and erasing
a node keep the tree balanced and linked, change the order by that node
only, write only to nodes of the tree, and leave it to be walked in the new
order. -/
theorem rbtree_preserves {s : Rb a} {t : RbTree a} {fuel : Nat}
    (h : Repr s t) (hrb : RedBlack t) (hfuel : t.size + 1 < fuel) :
    (∀ parent d before after n old, EmptyLink s t.toList parent d before after → IsAddr n →
      s.heap n = some old → n ∉ t.toList →
      ∃ s₁ s', rbLinkNode s n parent d = some s₁ ∧ rbInsertColor fuel s₁ n = some s' ∧
        Holds fuel s' (before ++ n :: after) ∧ ∀ q, q ≠ n → q ∉ t.toList → s'.heap q = s.heap q) ∧
    (∀ p, p ∈ t.toList → ∃ s', rbErase fuel s p = some s' ∧ Holds fuel s' (t.toList.erase p) ∧
        ∀ q, q ∉ t.toList → s'.heap q = s.heap q) := by
  have htree : IsTree s t.toList := ⟨t, h, hrb, rfl⟩
  rw [size_eq_length] at hfuel
  refine ⟨fun parent d before after n old hlink hn hold hnew => ?_, fun p hp => ?_⟩
  · have hlt : t.toList.length < fuel := by omega
    obtain ⟨s₁, s', hs₁, hs', htree', hframe⟩ := htree.insert hlt hlink hn hold hnew
    refine ⟨s₁, s', hs₁, hs', htree'.holds ?_, hframe⟩
    have hlist : t.toList.length = before.length + after.length := by
      obtain ⟨ctx, ht, -, -, rfl, rfl⟩ := exists_ctx_of_emptyLink h hlink
      rw [ht, toList_plug, toList_leaf, nil_append, length_append]
    rw [length_append, length_cons]
    omega
  · obtain ⟨s', hs', htree', hframe⟩ := htree.erase hfuel hp
    refine ⟨s', hs', htree'.holds ?_, hframe⟩
    have hlen := length_erase_of_mem hp
    omega

/-- A tree of four nodes, of which the last is red, and a node not yet linked. -/
def fourNodes : Rb .w32 where
  heap q := if q = 4 then some ⟨9, 0, 0⟩
    else if q = 8 then some ⟨1, 12, 4⟩
    else if q = 12 then some ⟨9, 16, 0⟩
    else if q = 16 then some ⟨12, 0, 0⟩
    else if q = 20 then some ⟨0, 0, 0⟩ else none
  rbNode := 8

def fourTree : RbTree .w32 :=
  .node (.node .leaf 4 .black .leaf) 8 .black
    (.node .leaf 12 .black (.node .leaf 16 .red .leaf))

/-- Linking a fifth node below the red one makes the tree turn, and so does erasing the
black leaf. -/
theorem rbtree_preserves_fourNodes :
    (∃ s₁ s', rbLinkNode fourNodes 20 16 .right = some s₁ ∧
      rbInsertColor 6 s₁ 20 = some s' ∧ Holds 6 s' [4, 8, 12, 16, 20]) ∧
    ∃ s', rbErase 6 fourNodes 4 = some s' ∧ Holds 6 s' [8, 12, 16] := by
  have hlist : fourTree.toList = [4, 8, 12, 16] := rfl
  have h : Repr fourNodes fourTree := ⟨rfl,
    ⟨rfl, ⟨rfl, trivial, trivial⟩, ⟨rfl, trivial, rfl, trivial, trivial⟩⟩, by decide, by
      rw [hlist]
      exact forall_mem_cons.mpr ⟨by decide, forall_mem_cons.mpr ⟨by decide,
        forall_mem_cons.mpr ⟨by decide, forall_mem_singleton.mpr (by decide)⟩⟩⟩⟩
  have hrb : RedBlack fourTree :=
    ⟨rfl, ⟨nofun, ⟨nofun, trivial, trivial⟩, nofun, trivial, fun _ => ⟨rfl, rfl⟩, trivial, trivial⟩,
      2, 1, rfl, ⟨0, rfl, rfl, rfl⟩, 0, rfl, rfl, rfl, rfl⟩
  have hlink : EmptyLink fourNodes fourTree.toList 16 .right ([4, 8, 12] ++ [16]) [] :=
    .right rfl rfl rfl
  have hfuel : fourTree.size + 1 < 6 := by decide
  obtain ⟨hinsert, herase⟩ := rbtree_preserves h hrb hfuel
  obtain ⟨s₁, s', hs₁, hs', hholds, -⟩ := hinsert 16 .right _ _ 20
    ⟨0, 0, 0⟩ hlink (by decide) rfl (by decide)
  obtain ⟨s₂, hs₂, hholds₂, -⟩ := herase 4 (by decide)
  exact ⟨⟨s₁, s', hs₁, hs', hholds⟩, s₂, hs₂, hholds₂⟩

end BoardStack.Rbtree
