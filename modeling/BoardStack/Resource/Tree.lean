/-
Requests, insertions and releases keep the tree of resources.

Every operation changes the children of one node: it replaces what follows the
children it has passed (`hasForest_splice`), and `IsTree.replace` puts the
changed list back into the tree. An insertion first walks down from the given
parent; `Deepest` says where it stops, and follows from one step
(`Deepest.step`) because children are disjoint.
-/
import BoardStack.Resource.Basic
import Mathlib.Data.List.Pairwise
import Mathlib.Data.Nat.Basic

namespace BoardStack.Resource

open Base Forest Function Option Nat
open List (mem_append mem_cons nodup_append' length_append mem_append_right length_cons
  sublist_append_right mem_append_left mem_cons_self mem_cons_of_mem not_mem_nil forall_mem_cons
  forall_mem_append
  disjoint_append_right)

variable {P : Type} {h h' : Heap P} {f g : Forest P Range}
  {root new old p q : P} {r a b : Range} {l l1 l2 : List Range} {fuel : Nat}
  {par next : Option P} {x y z : Node P Range}
variable {before rest : Forest P Range} {c : Range}

-- == children

lemma Children.apart (hl : Children r l) : l.Pairwise fun a b => a.end_ < b.start := by
  refine (hl.sorted.and hl.disjoint).imp_of_mem ?_
  rintro a b ha hb ⟨hle, hlt | hlt⟩
  · exact hlt
  · have := (hl.inside a ha).1
    have := (hl.inside b hb).1
    omega

lemma Children.of_apart (hl : l.Pairwise fun a b => a.end_ < b.start)
    (hin : ∀ a ∈ l, a.start ≤ a.end_ ∧ r.start ≤ a.start ∧ a.end_ ≤ r.end_) :
    Children r l := by
  refine ⟨hl.imp_of_mem ?_, hl.imp fun hlt => .inl hlt, hin⟩
  intro a b ha _ hlt
  have := (hin a ha).1
  omega

lemma Children.sublist (hl : Children r l) (hs : l1.Sublist l) : Children r l1 :=
  ⟨hl.sorted.sublist hs, hl.disjoint.sublist hs, fun a ha => hl.inside a (hs.subset ha)⟩

lemma Children.disjoint_of_ne (hf : Children r f.tops) (hx : x ∈ f.roots)
    (hy : y ∈ f.roots) (hne : x ≠ y) :
    x.attr.end_ < y.attr.start ∨ y.attr.end_ < x.attr.start := by
  have hdisj := hf.disjoint
  unfold tops at hdisj
  rw [List.pairwise_map] at hdisj
  have : Std.Symm fun a b : Node P Range =>
      a.attr.end_ < b.attr.start ∨ b.attr.end_ < a.attr.start :=
    ⟨fun a b => Or.symm⟩
  exact hdisj.forall hx hy hne

lemma Children.insert (mid : List Range) (hl : Children r (l1 ++ (mid ++ l2)))
    (hle : c.start ≤ c.end_) (hc : Covers r c) (h1 : ∀ a ∈ l1, a.end_ < c.start)
    (h2 : ∀ a ∈ l2, c.end_ < a.start) : Children r (l1 ++ c :: l2) := by
  have hsub : (l1 ++ l2).Sublist (l1 ++ (mid ++ l2)) := (sublist_append_right mid l2).append_left l1
  have hrest := hl.sublist hsub
  have hapart := hrest.apart
  rw [List.pairwise_append] at hapart
  apply Children.of_apart
  · rw [List.pairwise_append, List.pairwise_cons]
    exact ⟨hapart.1, ⟨h2, hapart.2.1⟩, fun a ha =>
      forall_mem_cons.mpr ⟨h1 a ha, hapart.2.2 a ha⟩⟩
  · obtain ⟨hin1, hin2⟩ := forall_mem_append.mp hrest.inside
    exact forall_mem_append.mpr ⟨hin1, forall_mem_cons.mpr ⟨⟨hle, hc⟩, hin2⟩⟩

lemma late_of_head? (hl : Children r l) {m : Nat}
    (hhead : ∀ a ∈ l.head?, m < a.start) : ∀ a ∈ l, m < a.start := by
  cases l with
  | nil => exact List.forall_mem_nil _
  | cons b l =>
    have hb := hhead b rfl
    refine forall_mem_cons.mpr ⟨hb, fun a ha => ?_⟩
    have := (List.pairwise_cons.mp hl.sorted).1 a ha
    omega

-- == the deepest node

lemma covers_of_mem_nodes (hf : ∀ z ∈ f.nodes, Children z.attr z.kids.tops)
    (htop : ∀ c ∈ f.tops, Covers a c) (hx : x ∈ f.nodes) : Covers a x.attr := by
  induction f generalizing a with
  | nil => exact absurd hx not_mem_nil
  | cons p c kids rest ihk ihr =>
    have hc : Covers a c := htop c mem_cons_self
    rcases mem_cons.mp hx with rfl | hx
    · exact hc
    rcases mem_append.mp hx with hx | hx
    · refine ihk (fun z hz => hf z ?_) ?_ hx
      · exact mem_cons_of_mem _ (mem_append_left _ hz)
      · intro d hd
        have hin := ((hf ⟨p, c, kids⟩ mem_cons_self).inside d hd).2
        exact ⟨le_trans hc.1 hin.1, le_trans hin.2 hc.2⟩
    · refine ihr (fun z hz => hf z ?_) (fun d hd => htop d ?_) hx
      · exact mem_cons_of_mem _ (mem_append_right _ hz)
      · exact mem_cons_of_mem _ hd

lemma IsTree.covers_below (ht : IsTree h f) (hx : x ∈ f.nodes)
    (hy : Below x y) : Covers x.attr y.attr := by
  rcases hy with rfl | hy
  · exact ⟨le_refl _, le_refl _⟩
  · refine covers_of_mem_nodes (fun z hz => ht.children z (mem_nodes_trans hx hz)) ?_ hy
    exact fun c hc => ((ht.children x hx).inside c hc).2

lemma Below.trans (hxy : Below x y) (hyz : Below y z) : Below x z := by
  rcases hyz with rfl | hyz
  · exact hxy
  · rcases hxy with rfl | hxy
    · exact .inr hyz
    · exact .inr (mem_nodes_trans hxy hyz)

lemma not_mem_own_kids : x ∉ x.kids.nodes :=
  fun hx => absurd (length_kids_lt hx) (lt_irrefl _)

lemma Deepest.self (ht : IsTree h f) (hx : x ∈ f.nodes) (hin : Covers x.attr r)
    (hkids : ∀ c ∈ x.kids.tops, Covers c r → c = r) : Deepest x r x := by
  refine ⟨⟨.inl rfl, hin, .inl rfl⟩, ?_⟩
  rintro y ⟨rfl | hy, hcov, hne⟩
  · exact .inl rfl
  exfalso
  obtain ⟨c, hc, hyc⟩ := exists_root_of_mem hy
  have hcn : c ∈ f.nodes := mem_nodes_trans hx (mem_nodes_of_mem_roots hc)
  have hcy := ht.covers_below hcn hyc
  have hcr : c.attr = r :=
    hkids c.attr (List.mem_map_of_mem hc) ⟨le_trans hcy.1 hcov.1, le_trans hcov.2 hcy.2⟩
  -- so `y` lies between a range and itself
  rw [hcr] at hcy
  rcases hne with rfl | hne
  · exact not_mem_own_kids hy
  · exact hne (Range.ext (le_antisymm hcov.1 hcy.1) (le_antisymm hcy.2 hcov.2))

/-- A child that is in conflict with the range, and not larger than it, leaves
no other child that covers it. -/
lemma Deepest.of_conflict (ht : IsTree h f) (hx : x ∈ f.nodes)
    (hin : Covers x.attr r) (hy : y ∈ x.kids.roots) (hover : Overlap y.attr r)
    (hsmall : Covers y.attr r → y.attr = r) : Deepest x r x := by
  apply Deepest.self ht hx hin
  intro c hc hcov
  obtain ⟨z, hz, rfl⟩ := List.mem_map.mp hc
  by_cases hzy : z = y
  · subst hzy
    exact hsmall hcov
  exfalso
  have := (ht.children x hx).disjoint_of_ne hz hy hzy
  unfold Covers at hcov
  unfold Overlap at hover
  omega

/-- One step down: the child that covers the range is the only one. -/
lemma Deepest.step (ht : IsTree h f) (hx : x ∈ f.nodes)
    (hc : y ∈ x.kids.roots) (hle : r.start ≤ r.end_) (hcov : Covers y.attr r)
    (hne : y.attr ≠ r) (hz : Deepest y r z) : Deepest x r z := by
  have hyx : Below x y := .inr (mem_nodes_of_mem_roots hc)
  refine ⟨⟨hyx.trans hz.1.1, hz.1.2.1, .inr ?_⟩, ?_⟩
  · rcases hz.1.2.2 with rfl | hzr
    · exact hne
    · exact hzr
  rintro w ⟨rfl | hw, hwr, hwx⟩
  · exact hyx.trans hz.1.1
  obtain ⟨c, hcr, hwc⟩ := exists_root_of_mem hw
  have hcn : c ∈ f.nodes := mem_nodes_trans hx (mem_nodes_of_mem_roots hcr)
  have hcw := ht.covers_below hcn hwc
  have hcy : c = y := by
    by_contra hcy
    have := (ht.children x hx).disjoint_of_ne hcr hc hcy
    unfold Covers at hcw hwr hcov
    omega
  subst hcy
  apply hz.2 w ⟨hwc, hwr, ?_⟩
  rcases hwx with rfl | hwx
  · exact absurd hw not_mem_own_kids
  · exact .inr hwx

lemma coverLoop_spec (new : P) : ∀ fuel p c kids,
    HasForest h par none (cons p c kids rest) → rest.nodes.length < fuel →
    (∃ conflict, coverLoop h new fuel p = some (.inl conflict)) ∨
    ∃ (run after : Forest P Range) (last : P), rest = run.append after ∧ Covers (h new).attr c ∧
      (∀ a ∈ run.tops, Covers (h new).attr a) ∧
      (∀ a ∈ after.tops.head?, (h new).attr.end_ < a.start) ∧
      lastLink (.sibling p) run = .sibling last ∧
      coverLoop h new fuel p = some (.inr last) := by
  induction rest with
  | nil =>
    intro fuel p c kids hf hfuel
    rcases fuel with _ | fuel
    · omega
    rw [coverLoop, hf.1]
    by_cases hpart : c.start < (h new).attr.start ∨ c.end_ > (h new).attr.end_
    · rw [if_pos hpart]
      exact .inl ⟨p, rfl⟩
    · rw [if_neg hpart]
      refine .inr ⟨nil, nil, p, rfl, ⟨by omega, by omega⟩, by simp, by simp, rfl, rfl⟩
  | cons p' c' kids' rest _ ih =>
    intro fuel p c kids hf hfuel
    rcases fuel with _ | fuel
    · omega
    simp only [nodes, length_cons, length_append] at hfuel
    have hattr : (h p').attr = c' := by rw [hf.2.2.1]
    rw [coverLoop, hf.1, first_cons]
    dsimp only
    rw [hattr]
    by_cases hpart : c.start < (h new).attr.start ∨ c.end_ > (h new).attr.end_
    · rw [if_pos hpart]
      exact .inl ⟨p, rfl⟩
    rw [if_neg hpart]
    have hcov : Covers (h new).attr c := ⟨by omega, by omega⟩
    by_cases hlate : c'.start > (h new).attr.end_
    · rw [if_pos hlate]
      refine .inr ⟨nil, cons p' c' kids' rest, p, rfl, hcov, by simp, ?_, rfl, rfl⟩
      simpa using hlate
    rw [if_neg hlate]
    rcases ih fuel p' c' kids' hf.2.2 (by omega) with
      ⟨conflict, hrun⟩ | ⟨run, after, last, rfl, hc', hrun, hafter, hlast, heq⟩
    · exact .inl ⟨conflict, hrun⟩
    · refine .inr ⟨cons p' c' kids' run, after, last, rfl, hcov, ?_, hafter, hlast, heq⟩
      exact forall_mem_cons.mpr ⟨hc', hrun⟩

-- == trees

variable [DecidableEq P]

lemma IsTree.node (ht : IsTree h f) (hx : x ∈ f.nodes) :
    (h x.ptr).attr = x.attr ∧ (h x.ptr).child = x.kids.first none ∧
      HasForest h (some x.ptr) none x.kids ∧ x.kids.ptrs.Nodup ∧
      x.ptr ∉ x.kids.ptrs ∧ ∀ p ∈ x.kids.ptrs, p ∈ f.ptrs := by
  obtain ⟨hattr, hchild, hkids⟩ := ht.holds.node hx
  obtain ⟨l, r, hsplit, hmem, -⟩ := ptrs_setKids nil ht.nodup hx
  have hnd := ht.nodup
  rw [hsplit, nodup_append', nodup_append'] at hnd
  refine ⟨hattr, hchild, hkids, hnd.2.1.1, ?_, ?_⟩
  · exact fun hin => hnd.2.2 hmem (mem_append_left r hin)
  · intro p hp
    rw [hsplit]
    simp [hp]

variable {kids : Forest P Range}

lemma IsTree.replace (ht : IsTree h f) (hx : x ∈ f.nodes)
    (hsame : ∀ p ∈ f.ptrs, p ≠ x.ptr → p ∉ x.kids.ptrs → h' p = h p)
    (hcell : h' x.ptr = { h x.ptr with child := kids.first none })
    (hkids : HasForest h' (some x.ptr) none kids) (hnd : kids.ptrs.Nodup)
    (hsub : ∀ p ∈ kids.ptrs, p ∈ x.kids.ptrs ∨ p ∉ f.ptrs) (hc : Children x.attr kids.tops)
    (hbelow : ∀ y ∈ kids.nodes, Children y.attr y.kids.tops) :
    IsTree h' (f.setKids x.ptr kids) := by
  refine ⟨hasForest_setKids ht.nodup ht.holds hx hsame hcell hkids, ?_, ?_⟩
  · obtain ⟨l, r, hsplit, -, hset⟩ := ptrs_setKids kids ht.nodup hx
    have hold := ht.nodup
    rw [hsplit, nodup_append', nodup_append', disjoint_append_right] at hold
    obtain ⟨hl, ⟨-, hr, hkr⟩, hlk, hlr⟩ := hold
    rw [hset, nodup_append', nodup_append', disjoint_append_right]
    refine ⟨hl, ⟨hnd, hr, ?_⟩, ?_, hlr⟩
    · intro p hp hpr
      rcases hsub p hp with hin | hout
      · exact hkr hin hpr
      · exact hout (by rw [hsplit]; simp [hpr])
    · intro p hpl hp
      rcases hsub p hp with hin | hout
      · exact hlk hpl hin
      · exact hout (by rw [hsplit]; simp [hpl])
  · intro z hz
    rcases mem_nodes_setKids hz with ⟨y, hy, hattr, htops⟩ | ⟨y, hy, hq, rfl⟩ | hz
    · rw [hattr, htops]
      exact ht.children y hy
    · have hyx := eq_of_ptr_eq ht.nodup hy hx hq
      rw [hyx]
      exact hc
    · exact hbelow z hz

/-- The children of `x` in two parts. -/
structure Cut (h : Heap P) (f : Forest P Range) (x : Node P Range) (before rest : Forest P Range) :
    Prop where
  child : (h x.ptr).child = before.first (rest.first none)
  front : HasForest h (some x.ptr) (rest.first none) before
  back : HasForest h (some x.ptr) none rest
  nodup : before.ptrs.Nodup
  nodupBack : rest.ptrs.Nodup
  disjoint : before.ptrs.Disjoint rest.ptrs
  notMem : x.ptr ∉ before.ptrs ∧ x.ptr ∉ rest.ptrs
  sub : ∀ p, p ∈ before.ptrs ∨ p ∈ rest.ptrs → p ∈ f.ptrs
  children : Children x.attr (before.tops ++ rest.tops)
  below : ∀ y, y ∈ before.nodes ∨ y ∈ rest.nodes → Children y.attr y.kids.tops
  length : before.nodes.length + rest.nodes.length < f.nodes.length

lemma IsTree.cut (ht : IsTree h f) (hx : x ∈ f.nodes) (hkids : x.kids = before.append rest) :
    Cut h f x before rest := by
  obtain ⟨-, hchild, hhas, hnd, hxk, hkf⟩ := ht.node hx
  have hc := ht.children x hx
  have hlen := length_kids_lt hx
  have hbelow := fun y hy => ht.children y (mem_nodes_trans hx hy)
  simp only [hkids, first_append, hasForest_append, ptrs_append, nodup_append', mem_append, not_or,
    tops_append, nodes_append, length_append] at hchild hhas hnd hxk hkf hc hlen hbelow
  exact ⟨hchild, hhas.1, hhas.2, hnd.1, hnd.2.1, hnd.2.2, hxk, hkf, hc, hbelow, hlen⟩

lemma IsTree.splice {h1 : Heap P} (ht : IsTree h f) (rest' : Forest P Range) (hx : x ∈ f.nodes)
    (hkids : x.kids = before.append rest) (hsame : ∀ p ∈ f.ptrs, p ∉ rest.ptrs → h1 p = h p)
    (hrest : HasForest h1 (some x.ptr) none rest') (hnd : rest'.ptrs.Nodup)
    (hsub : ∀ p ∈ rest'.ptrs, p ∈ rest.ptrs ∨ p ∉ f.ptrs)
    (hc : Children x.attr (before.tops ++ rest'.tops))
    (hbelow : ∀ y ∈ rest'.nodes, Children y.attr y.kids.tops) :
    IsTree ((lastLink (.child x.ptr) before).set h1 (rest'.first none))
      (f.setKids x.ptr (before.append rest')) := by
  have hcut := ht.cut hx hkids
  have hxf : x.ptr ∈ f.ptrs := mem_ptrs_of_mem_nodes hx
  have hin : ∀ p, p ∈ x.kids.ptrs ↔ p ∈ before.ptrs ∨ p ∈ rest.ptrs := by
    intro p
    rw [hkids, ptrs_append, mem_append]
  have hxr' : x.ptr ∉ rest'.ptrs := by
    intro hp
    rcases hsub _ hp with hr | hout
    · exact hcut.notMem.2 hr
    · exact hout hxf
  have hdisj' : before.ptrs.Disjoint rest'.ptrs := by
    intro p hb hp
    rcases hsub p hp with hr | hout
    · exact hcut.disjoint hb hr
    · exact hout (hcut.sub p (.inl hb))
  have hbefore : HasForest h1 (some x.ptr) (rest.first none) before :=
    hasForest_congr hcut.front fun p hp => hsame p (hcut.sub p (.inl hp)) (hcut.disjoint hp)
  have hcell := hsame x.ptr hxf hcut.notMem.2
  apply ht.replace hx
  · intro p hp hpx hpk
    rw [hin, not_or] at hpk
    rw [Link.set_of_ne (ne_lastLink_owner hpx hpk.1)]
    exact hsame p hp hpk.2
  · rw [set_lastLink_parent hcut.notMem.1, hcell, first_append]
    exact ⟨_, hcell ▸ hcut.child⟩
  · exact hasForest_splice hbefore hcut.nodup hcut.notMem.1 hxr' hdisj' hrest
  · rw [ptrs_append, nodup_append']
    exact ⟨hcut.nodup, hnd, hdisj'⟩
  · intro p hp
    rw [hin]
    rw [ptrs_append, mem_append] at hp
    rcases hp with hp | hp
    · exact .inl (.inl hp)
    · exact (hsub p hp).imp_left .inr
  · rw [tops_append]
    exact hc
  · intro y hy
    rw [nodes_append, mem_append] at hy
    rcases hy with hy | hy
    · exact hcut.below y (.inl hy)
    · exact hbelow y hy

-- == request

/-- The walk of `__request_resource`: it passes the resources that end before
the new one, and finds the place or a conflict. -/
lemma requestLoop_spec (root new : P) (hf : HasForest h par none f) :
    ∀ fuel (link : Link P), link.get h = f.first none → f.nodes.length < fuel →
    ∃ before rest : Forest P Range, f = before.append rest ∧
      (∀ a ∈ before.tops, a.end_ < (h new).attr.start) ∧
      ((∀ a ∈ rest.tops.head?, (h new).attr.end_ < a.start) ∧ requestLoop h root new fuel link
            = some (linkIn h root new (lastLink link before) (rest.first none),
              none) ∨ ∃ x ∈ rest.roots.head?, Overlap x.attr (h new).attr ∧
          requestLoop h root new fuel link = some (h, some x.ptr)) := by
  induction f with
  | nil =>
    intro fuel link hlink hfuel
    rcases fuel with _ | fuel
    · omega
    refine ⟨nil, nil, rfl, by simp, .inl ⟨by simp, ?_⟩⟩
    rw [requestLoop, hlink]
    rfl
  | cons p c kids rest _ ih =>
    intro fuel link hlink hfuel
    rcases fuel with _ | fuel
    · omega
    have hattr : (h p).attr = c := by rw [hf.1]
    rw [requestLoop, hlink, first_cons]
    dsimp only
    rw [hattr]
    by_cases hlate : c.start > (h new).attr.end_
    · refine ⟨nil, cons p c kids rest, rfl, by simp, .inl ⟨?_, ?_⟩⟩
      · simpa using hlate
      · rw [if_pos hlate]
        rfl
    rw [if_neg hlate]
    by_cases hearly : c.end_ < (h new).attr.start
    · rw [if_pos hearly]
      have hlen : rest.nodes.length < fuel := by
        simp only [nodes, length_cons, length_append] at hfuel
        omega
      have hsib : (Link.sibling p).get h = rest.first none := by
        show (h p).sibling = _
        rw [hf.1]
      obtain ⟨before, rest', rfl, hbefore, hres⟩ := ih hf.2.2 fuel (.sibling p) hsib hlen
      refine ⟨cons p c kids before, rest', rfl, ?_, hres⟩
      exact forall_mem_cons.mpr ⟨hearly, hbefore⟩
    · rw [if_neg hearly]
      refine ⟨nil, cons p c kids rest, rfl, by simp, .inr ⟨⟨p, c, kids⟩, rfl, ⟨?_, ?_⟩, rfl⟩⟩
      · exact not_lt.mp hlate
      · exact not_lt.mp hearly

lemma set_setParent {link : Link P} {x : Option P} (hne : new ≠ link.owner) :
    setParent (link.set h x) new par = link.set (setParent h new par) x := by
  have hsame := Link.set_of_ne (h := h) (x := x) hne
  funext p
  unfold setParent
  by_cases hp : p = new
  · subst hp
    rw [update_self, hsame, Link.set_of_ne hne, update_self]
  rw [update_of_ne hp]
  cases link with
  | child q | sibling q =>
    have hq : q ≠ new := hne.symm
    simp only [Link.set, update_apply, hp, hq, if_false]

lemma IsTree.linkIn (ht : IsTree h f) (hnew : IsNew h f new) (hx : x ∈ f.nodes)
    (hkids : x.kids = before.append rest) (hin : Covers x.attr (h new).attr)
    (hbefore : ∀ a ∈ before.tops, a.end_ < (h new).attr.start)
    (hrest : ∀ a ∈ rest.tops.head?, (h new).attr.end_ < a.start) :
    IsTree (linkIn h x.ptr new (lastLink (.child x.ptr) before) (rest.first none))
      (f.setKids x.ptr (before.append (cons new (h new).attr nil rest))) := by
  have hcut := ht.cut hx hkids
  have hxnew : new ≠ x.ptr := fun heq => hnew.fresh (heq ▸ mem_ptrs_of_mem_nodes hx)
  have hne : ∀ p ∈ f.ptrs, p ≠ new := fun p hp heq => hnew.fresh (heq ▸ hp)
  -- the cell of the new resource is written before the pointer to it
  let h1 := setParent ((Link.sibling new).set h (rest.first none)) new (some x.ptr)
  have hcell : h1 new = ⟨(h new).attr, some x.ptr, rest.first none, none⟩ := by
    simp [h1, setParent, Link.set, hnew.childless]
  have hout : ∀ p ∈ f.ptrs, h1 p = h p := by
    intro p hp
    simp [h1, setParent, Link.set, update_of_ne (hne p hp)]
  have heq : Resource.linkIn h x.ptr new (lastLink (.child x.ptr) before)
      (rest.first none) = (lastLink (.child x.ptr) before).set h1 (some new) := by
    apply set_setParent
    exact ne_lastLink_owner hxnew fun hb => hnew.fresh (hcut.sub new (.inl hb))
  rw [heq]
  apply ht.splice (cons new (h new).attr nil rest) hx hkids
  · exact fun p hp _ => hout p hp
  · exact ⟨hcell, trivial, hasForest_congr hcut.back fun p hp => hout p (hcut.sub p (.inr hp))⟩
  · simp only [ptrs_cons, ptrs_nil, List.nil_append, List.nodup_cons]
    exact ⟨fun hr => hnew.fresh (hcut.sub new (.inr hr)), hcut.nodupBack⟩
  · intro p hp
    simp only [ptrs_cons, ptrs_nil, List.nil_append, mem_cons] at hp
    rcases hp with rfl | hp
    · exact .inr hnew.fresh
    · exact .inl hp
  · have hlate := late_of_head? (hcut.children.sublist (sublist_append_right _ _)) hrest
    exact Children.insert [] hcut.children hnew.le hin hbefore hlate
  · intro y hy
    simp only [nodes, List.nil_append, mem_cons] at hy
    rcases hy with rfl | hy
    · exact ⟨.nil, .nil, by simp⟩
    · exact hcut.below y (.inr hy)

/-- What `__request_resource` comes to below the node `x`: the place for the new
resource, or the first child in conflict, or the node itself. -/
lemma requestResource_spec (ht : IsTree h f) (hnew : IsNew h f new)
    (hx : x ∈ f.nodes) (hfuel : f.nodes.length < fuel) :
    (¬Covers x.attr (h new).attr ∧ requestResource fuel h x.ptr new = some (h, some x.ptr)) ∨
    Covers x.attr (h new).attr ∧ ∃ before rest : Forest P Range, x.kids = before.append rest ∧
      (∀ a ∈ before.tops, a.end_ < (h new).attr.start) ∧
      ((∀ a ∈ rest.tops, (h new).attr.end_ < a.start) ∧
        (∃ h', requestResource fuel h x.ptr new = some (h', none) ∧ IsTree h' (f.setKids x.ptr
            (before.append (cons new (h new).attr nil rest)))) ∨
      ∃ y ∈ rest.roots.head?, Overlap y.attr (h new).attr ∧
        requestResource fuel h x.ptr new = some (h, some y.ptr)) := by
  obtain ⟨hattr, hchild, hhas, -⟩ := ht.node hx
  have hle := hnew.le
  unfold requestResource
  rw [hattr, if_neg (not_lt.mpr hle)]
  by_cases hlo : (h new).attr.start < x.attr.start
  · refine .inl ⟨fun hin => ?_, by rw [if_pos hlo]⟩
    have := hin.1
    omega
  rw [if_neg hlo]
  by_cases hhi : (h new).attr.end_ > x.attr.end_
  · refine .inl ⟨fun hin => ?_, by rw [if_pos hhi]⟩
    have := hin.2
    omega
  rw [if_neg hhi]
  have hin : Covers x.attr (h new).attr := ⟨by omega, by omega⟩
  have hlen : x.kids.nodes.length < fuel := by
    have := length_kids_lt hx
    omega
  obtain ⟨before, rest, hkids, hbefore, hres⟩ :=
    requestLoop_spec x.ptr new hhas fuel (.child x.ptr) hchild hlen
  refine .inr ⟨hin, before, rest, hkids, hbefore, ?_⟩
  rcases hres with ⟨hrest, hrun⟩ | ⟨y, hy, hover, hrun⟩
  · refine .inl ⟨?_, _, hrun, ht.linkIn hnew hx hkids hin hbefore hrest⟩
    exact late_of_head? ((ht.cut hx hkids).children.sublist (sublist_append_right _ _)) hrest
  · exact .inr ⟨y, hy, hover, hrun⟩

-- == release

lemma releaseLoop_spec (hnot : old ∉ before.ptrs) : ∀ fuel (link : Link P),
      HasForest h par none (before.append (cons old c nil rest)) →
      link.get h = (before.append (cons old c nil rest)).first none →
      before.nodes.length < fuel →
      releaseLoop h old fuel link
        = some (setParent ((lastLink link before).set h (rest.first none)) old none, 0) := by
  induction before with
  | nil =>
    intro fuel link hf hlink hfuel
    rcases fuel with _ | fuel
    · omega
    have hsib : (h old).sibling = rest.first none := by rw [hf.1]
    rw [releaseLoop, hlink, nil_append, first_cons]
    dsimp only
    rw [if_pos rfl, hsib]
    rfl
  | cons p c' kids before _ ih =>
    intro fuel link hf hlink hfuel
    rcases fuel with _ | fuel
    · omega
    simp only [ptrs_cons, mem_cons, mem_append, not_or] at hnot
    simp only [nodes, length_cons, length_append] at hfuel
    rw [releaseLoop, hlink, cons_append, first_cons]
    dsimp only
    rw [if_neg (Ne.symm hnot.1)]
    refine ih hnot.2.2 fuel (.sibling p) hf.2.2 ?_ (by omega)
    show (h p).sibling = _
    rw [hf.1]

lemma releaseResource_spec (ht : IsTree h f) (hx : x ∈ f.nodes) (hleaf : (h x.ptr).child = none)
    (hpar : (h x.ptr).parent ≠ none) (hfuel : f.nodes.length < fuel) :
    ∃ h', releaseResource fuel h x.ptr = some (h', 0) ∧
      ∃ y ∈ f.nodes, ∃ before rest : Forest P Range,
        y.kids = before.append (cons x.ptr x.attr nil rest) ∧
        IsTree h' (f.setKids y.ptr (before.append rest)) := by
  obtain ⟨-, hnone⟩ | ⟨y, hy, hroot, hsome⟩ := ht.holds.parent hx
  · exact absurd hnone hpar
  obtain ⟨before, rest, hkids⟩ := exists_of_mem_roots hroot
  have hnil : x.kids = nil := by
    have hchild := (ht.node hx).2.1
    rw [hleaf] at hchild
    cases hk : x.kids with
    | nil => rfl
    | cons p c kids rest =>
      simp [hk] at hchild
  rw [hnil] at hkids
  have hcut := ht.cut hy hkids
  have hxb : x.ptr ∉ before.ptrs := fun hb => hcut.disjoint hb (by simp)
  obtain ⟨hxr, hrnd⟩ : x.ptr ∉ rest.ptrs ∧ rest.ptrs.Nodup := by simpa using hcut.nodupBack
  have hlen := hcut.length
  have hrun := releaseLoop_spec hxb fuel (.child y.ptr)
    (hasForest_append.mpr ⟨hcut.front, hcut.back⟩) (hcut.child.trans first_append.symm) (by omega)
  have hne : x.ptr ≠ (lastLink (.child y.ptr) before).owner :=
    ne_lastLink_owner (fun heq => hcut.notMem.2 (by simp [heq])) hxb
  rw [set_setParent hne] at hrun
  have hrel : releaseResource fuel h x.ptr
      = some ((lastLink (.child y.ptr) before).set (setParent h x.ptr none)
        (rest.first none), 0) := by
    unfold releaseResource
    rw [hsome]
    exact hrun
  refine ⟨_, hrel, y, hy, before, rest, hkids, ?_⟩
  have hsame : ∀ p, p ≠ x.ptr → setParent h x.ptr none p = h p := fun p hp => update_of_ne hp _ h
  apply ht.splice rest hy hkids
  · intro p _ hp
    exact hsame p fun heq => hp (by simp [heq])
  · exact hasForest_congr hcut.back.2.2 fun p hp => hsame p fun heq => hxr (heq ▸ hp)
  · exact hrnd
  · exact fun p hp => .inl (by simp [hp])
  · exact hcut.children.sublist ((List.sublist_cons_self _ _).append_left _)
  · exact fun z hz => hcut.below z (.inr (mem_cons_of_mem _ hz))

-- == insert

/-- Where the walk down from `x` comes to: `x` does not cover the range, or the
new resource went below the deepest node, or there is a conflict there. -/
lemma descendLoop_spec (ht : IsTree h f) (hnew : IsNew h f new)
    (hfuel : f.nodes.length < fuel) : ∀ n x, x ∈ f.nodes → x.kids.nodes.length < n →
    (¬Covers x.attr (h new).attr ∧ descendLoop fuel new n h x.ptr = some (.done h (some x.ptr))) ∨
    ∃ z ∈ f.nodes, Deepest x (h new).attr z ∧ ∃ before rest : Forest P Range,
      z.kids = before.append rest ∧
      (∀ a ∈ before.tops, a.end_ < (h new).attr.start) ∧
      ((∀ a ∈ rest.tops, (h new).attr.end_ < a.start) ∧
        (∃ h', descendLoop fuel new n h x.ptr = some (.done h' none) ∧ IsTree h' (f.setKids z.ptr
            (before.append (cons new (h new).attr nil rest)))) ∨
      ∃ y ∈ rest.roots.head?, Overlap y.attr (h new).attr ∧
        descendLoop fuel new n h x.ptr = some (.stopped h z.ptr y.ptr)) := by
  intro n
  induction n with
  | zero =>
    intro x _ hlen
    omega
  | succ n ih =>
    intro x hx hlen
    rw [descendLoop]
    rcases requestResource_spec ht hnew hx hfuel with
      ⟨hout, hrun⟩ | ⟨hin, before, rest, hkids, hbefore, hres⟩
    · refine .inl ⟨hout, ?_⟩
      rw [hrun, bind_some]
      dsimp only
      rw [if_pos rfl]
    rcases hres with ⟨hrest, h', hrun, ht'⟩ | ⟨y, hy, hover, hrun⟩
    · -- there is a place among the children, and so no child in conflict
      refine .inr ⟨x, hx, ?_, before, rest, hkids, hbefore, .inl ⟨hrest, h', ?_, ht'⟩⟩
      · apply Deepest.self ht hx hin
        intro c hc hcov
        exfalso
        rw [hkids, tops_append, mem_append] at hc
        have := hnew.le
        unfold Covers at hcov
        rcases hc with hc | hc
        · have := hbefore c hc
          omega
        · have := hrest c hc
          omega
      · rw [hrun, bind_some]
    have hyr : y ∈ x.kids.roots := by
      rw [hkids, roots_append]
      exact mem_append_right _ (List.mem_of_head? hy)
    have hyn : y ∈ f.nodes := mem_nodes_trans hx (mem_nodes_of_mem_roots hyr)
    have hyattr := (ht.node hyn).1
    have hyx : y.ptr ≠ x.ptr := by
      intro heq
      have hsame := eq_of_ptr_eq ht.nodup hyn hx heq
      rw [hsame] at hyr
      exact not_mem_own_kids (mem_nodes_of_mem_roots hyr)
    rw [hrun, bind_some]
    dsimp only
    rw [if_neg hyx, hyattr]
    -- the conflict is smaller in some way, equal, or larger
    have hcov : Covers y.attr (h new).attr ↔
        ¬(y.attr.start > (h new).attr.start ∨ y.attr.end_ < (h new).attr.end_) := by
      unfold Covers
      omega
    have heq : y.attr = (h new).attr ↔ y.attr.start = (h new).attr.start ∧
          y.attr.end_ = (h new).attr.end_ := by
      cases y.attr
      cases (h new).attr
      simp
    by_cases hpart : y.attr.start > (h new).attr.start ∨ y.attr.end_ < (h new).attr.end_
    · rw [if_pos hpart]
      have hdeep := Deepest.of_conflict ht hx hin hyr hover fun hc => absurd hpart (hcov.mp hc)
      exact .inr ⟨x, hx, hdeep, before, rest, hkids, hbefore, .inr ⟨y, hy, hover, rfl⟩⟩
    rw [if_neg hpart]
    by_cases hsame : y.attr.start = (h new).attr.start ∧ y.attr.end_ = (h new).attr.end_
    · rw [if_pos hsame]
      have hdeep := Deepest.of_conflict ht hx hin hyr hover fun _ => heq.mpr hsame
      exact .inr ⟨x, hx, hdeep, before, rest, hkids, hbefore, .inr ⟨y, hy, hover, rfl⟩⟩
    rw [if_neg hsame]
    have hlen' : y.kids.nodes.length < n := by
      have := length_kids_lt (mem_nodes_of_mem_roots hyr)
      omega
    rcases ih y hyn hlen' with ⟨hout, -⟩ | ⟨z, hz, hdeep, hres⟩
    · exact absurd (hcov.mpr hpart) hout
    · refine .inr ⟨z, hz, ?_, hres⟩
      exact hdeep.step ht hx hyr hnew.le (hcov.mpr hpart) fun h => hsame (heq.mp h)

lemma adoptLoop_spec (new : P) : ∀ fuel (h : Heap P), HasForest h par none f →
    f.ptrs.Nodup → f.nodes.length < fuel →
    ∃ h', adoptLoop new fuel h (f.first none) = some h' ∧
      HasForest h' (some new) none f ∧ ∀ p ∉ f.ptrs, h' p = h p := by
  induction f with
  | nil =>
    intro fuel h _ _ _
    refine ⟨h, ?_, trivial, fun _ _ => rfl⟩
    cases fuel <;> rfl
  | cons p c kids rest _ ih =>
    intro fuel h hf hnd hfuel
    rcases fuel with _ | fuel
    · omega
    obtain ⟨hpk, hpr, -, hr, hdisj⟩ := nodup_cons.mp hnd
    simp only [nodes, length_cons, length_append] at hfuel
    have hcell : setParent h p (some new) p = ⟨c, some new, rest.first none, kids.first none⟩ := by
      unfold setParent
      rw [update_self, hf.1]
    have hsame : ∀ q, q ≠ p → setParent h p (some new) q = h q := fun q hq => update_of_ne hq _ h
    have hrest : HasForest (setParent h p (some new)) par none rest :=
      hasForest_congr hf.2.2 fun q hq => hsame q fun heq => hpr (heq ▸ hq)
    obtain ⟨h', hrun, hhas, hout⟩ := ih fuel _ hrest hr (by omega)
    refine ⟨h', ?_, ⟨?_, ?_, hhas⟩, ?_⟩
    · rw [first_cons, adoptLoop, hcell]
      exact hrun
    · rw [hout p hpr, hcell]
    · refine hasForest_congr hf.2.1 fun q hq => ?_
      rw [hout q fun hq' => hdisj hq hq', hsame q fun heq => hpk (heq ▸ hq)]
    · intro q hq
      simp only [ptrs_cons, mem_cons, mem_append, not_or] at hq
      rw [hout q hq.2.2, hsame q hq.1]

lemma findLoop_spec {first : P} :
    ∀ fuel p c kids, HasForest h par (some first) (cons p c kids rest) →
      first ∉ rest.ptrs → rest.nodes.length < fuel →
      ∃ last, findLoop h first fuel p = some last ∧ lastLink (.sibling p) rest = .sibling last ∧
        (h last).attr ∈ c :: rest.tops ∧
        ∀ r, Children r (c :: rest.tops) → ∀ a ∈ c :: rest.tops, a.end_ ≤ (h last).attr.end_ := by
  induction rest with
  | nil =>
    intro fuel p c kids hf _ hfuel
    rcases fuel with _ | fuel
    · omega
    refine ⟨p, ?_, rfl, ?_, fun _ _ => ?_⟩
    · rw [findLoop, hf.1]
      rw [first_nil, if_pos rfl]
    · rw [hf.1]
      exact mem_cons_self
    · rw [hf.1]
      exact List.forall_mem_singleton.mpr (le_refl _)
  | cons p' c' kids' rest _ ih =>
    intro fuel p c kids hf hnot hfuel
    rcases fuel with _ | fuel
    · omega
    simp only [nodes, length_cons, length_append] at hfuel
    simp only [ptrs_cons, mem_cons, mem_append, not_or] at hnot
    obtain ⟨last, hrun, hlast, hmem, hends⟩ := ih fuel p' c' kids' hf.2.2 hnot.2.2 (by omega)
    refine ⟨last, ?_, hlast, mem_cons_of_mem _ hmem, fun r hc => ?_⟩
    · rw [findLoop, hf.1]
      rw [first_cons, if_neg fun heq => hnot.1 (Option.some.inj heq).symm, bind_some]
      exact hrun
    have hrest := hends r (hc.sublist (List.sublist_cons_self _ _))
    have h1 := (List.pairwise_cons.mp hc.apart).1 c' mem_cons_self
    have h2 := (hc.inside c' (by simp)).1
    have h3 := hrest c' mem_cons_self
    exact forall_mem_cons.mpr ⟨by omega, hrest⟩

lemma IsTree.adopt {after : Forest P Range} {first last : P} (ht : IsTree h f)
    (hnew : IsNew h f new) (hx : x ∈ f.nodes)
    (hkids : x.kids = before.append ((cons first c kids rest).append after))
    (hlast : lastLink (.sibling first) rest = .sibling last) (hin : Covers x.attr (h new).attr)
    (hbefore : ∀ a ∈ before.tops, a.end_ < (h new).attr.start)
    (hcov : ∀ a ∈ (cons first c kids rest).tops, Covers (h new).attr a)
    (hafter : ∀ a ∈ after.tops, (h new).attr.end_ < a.start) (hfuel : f.nodes.length < fuel) :
    ∃ h', adopt fuel h x.ptr new first last = some h' ∧ IsTree h' (f.setKids x.ptr (before.append
        (cons new (h new).attr (cons first c kids rest) after))) := by
  have hcut := ht.cut hx hkids
  generalize hrun : cons first c kids rest = run at *
  have hfirst : run.first none = some first := by rw [← hrun]; rfl
  have hlast' : lastLink (.child x.ptr) run = .sibling last := by
    rw [← hrun]
    exact hlast
  have hlen := hcut.length
  have hnd := hcut.nodupBack
  have hbr := hcut.disjoint
  have hxr := hcut.notMem.2
  have hkf := hcut.sub
  simp only [ptrs_append, nodup_append', disjoint_append_right, mem_append, not_or, nodes_append,
    length_append] at hlen hnd hbr hxr hkf
  obtain ⟨hrnd, hand, hra⟩ := hnd
  obtain ⟨hrunHas, hafterHas⟩ := hasForest_append.mp hcut.back
  have hxf : x.ptr ∈ f.ptrs := mem_ptrs_of_mem_nodes hx
  have hne : ∀ p ∈ f.ptrs, p ≠ new := fun p hp heq => hnew.fresh (heq ▸ hp)
  have hnewr : new ∉ run.ptrs := fun hp => hnew.fresh (hkf new (.inr (.inl hp)))
  have hnewa : new ∉ after.ptrs := fun hp => hnew.fresh (hkf new (.inr (.inr hp)))
  have hlastr : last ∈ run.ptrs := by
    rw [← hrun, ptrs_cons, mem_cons, mem_append]
    have howner := lastLink_owner (.sibling first) rest
    rw [hlast] at howner
    rcases howner with heq | hmem
    · exact .inl heq
    · exact .inr (.inr hmem)
  have hsib : (h last).sibling = after.first none := by
    have hcons := hrunHas
    rw [← hrun] at hcons
    have hget : (Link.sibling first).get h = rest.first (after.first none) := by
      show (h first).sibling = _
      rw [hcons.1]
    have hend := get_lastLink hcons.2.2 hget
    rw [hlast] at hend
    exact hend
  -- the cell of the new resource
  let h1 := (Link.child new).set ((Link.sibling new).set
    (setParent h new (some x.ptr)) (after.first none)) (some first)
  have hcell : h1 new = ⟨(h new).attr, some x.ptr, after.first none, some first⟩ := by
    simp [h1, setParent, Link.set]
  have hout : ∀ p, p ≠ new → h1 p = h p := by
    intro p hp
    simp [h1, setParent, Link.set, update_of_ne hp]
  -- the resources adopted are cut off
  have hoff : HasForest ((Link.sibling last).set h1 none) (some x.ptr) none run := by
    rw [← hlast']
    refine hasForest_set_lastLink (hasForest_congr hrunHas fun p hp => ?_) hrnd hxr.1
    exact hout p (hne p (hkf p (.inr (.inl hp))))
  obtain ⟨h2, hadopt, hrun', hsame⟩ := adoptLoop_spec new fuel _ hoff hrnd (by omega)
  have hout2 : ∀ p, p ∉ run.ptrs → p ≠ new → h2 p = h p := by
    intro p hp hpn
    rw [hsame p hp, Link.set_of_ne, hout p hpn]
    rintro rfl
    exact hp hlastr
  have hcell2 : h2 new = h1 new := by
    rw [hsame new hnewr, Link.set_of_ne]
    rintro rfl
    exact hnewr hlastr
  have hxcell : (h2 x.ptr).child = before.first (some first) := by
    rw [hout2 x.ptr hxr.1 (hne _ hxf), hcut.child, first_append, ← hrun]
    rfl
  -- the pointer in front of them
  have hadopted : Resource.adopt fuel h x.ptr new first last
      = some ((lastLink (.child x.ptr) before).set h2 (some new)) := by
    have hsib1 : (setParent h new (some x.ptr) last).sibling = after.first none := by
      unfold setParent
      rw [update_of_ne, hsib]
      rintro rfl
      exact hnewr hlastr
    unfold Resource.adopt
    dsimp only
    rw [hsib1]
    rw [hfirst] at hadopt
    rw [hadopt, bind_some, hxcell]
    cases hb : before with
    | nil => rw [first_nil, if_pos rfl, lastLink]
    | cons p c' kids' before' =>
      rw [hb] at hbr hcut hkf hlen
      have hpf : first ∈ run.ptrs := by rw [← hrun]; simp
      have hpne : p ≠ first := by
        rintro rfl
        exact hbr.1 (by simp) hpf
      have hbefore2 : HasForest h2 (some x.ptr) (some first) (cons p c' kids' before') := by
        have hold := hcut.front
        rw [first_append, ← hrun, first_cons] at hold
        refine hasForest_congr hold fun q hq => hout2 q ?_ ?_
        · exact fun hr => hbr.1 hq hr
        · exact hne q (hkf q (.inl hq))
      rw [nodes, length_cons, length_append] at hlen
      obtain ⟨w, hfind, hw, -⟩ := findLoop_spec fuel p c' kids' hbefore2
        (fun hp => hbr.1 (by simp [hp]) hpf) (by omega)
      rw [first_cons, if_neg fun heq => hpne (Option.some.inj heq),
        bind_some, hfind, map_some, lastLink, hw]
  refine ⟨_, hadopted, ?_⟩
  apply ht.splice (cons new (h new).attr run after) hx hkids
  · intro p hp hpr
    rw [ptrs_append, mem_append, not_or] at hpr
    exact hout2 p hpr.1 (hne p hp)
  · refine ⟨?_, hrun', hasForest_congr hafterHas fun p hp => ?_⟩
    · rw [hcell2, hcell, hfirst]
    · exact hout2 p (fun hr => hra hr hp) (hne p (hkf p (.inr (.inr hp))))
  · exact nodup_cons.mpr ⟨hnewr, hnewa, hrnd, hand, hra⟩
  · intro p hp
    rw [ptrs_cons, mem_cons, mem_append] at hp
    rw [ptrs_append, mem_append]
    rcases hp with rfl | hp
    · exact .inr hnew.fresh
    · exact .inl hp
  · have hc := hcut.children
    rw [tops_append] at hc
    exact Children.insert run.tops hc hnew.le hin hbefore hafter
  · intro y hy
    rcases mem_cons.mp hy with rfl | hy
    · have hrc : Children x.attr run.tops := by
        refine (hcut.children.sublist (sublist_append_right _ _)).sublist ?_
        rw [tops_append]
        exact List.sublist_append_left _ _
      refine ⟨hrc.sorted, hrc.disjoint, fun a ha => ⟨(hrc.inside a ha).1, ?_⟩⟩
      exact hcov a ha
    · exact hcut.below y (.inr (by rwa [nodes_append]))

/-- What `__insert_resource` comes to: a conflict, and nothing has changed; or
the new resource is below the deepest node, and has the children that it
covers. -/
lemma insertResource_spec (ht : IsTree h f) (hnew : IsNew h f new)
    (hx : x ∈ f.nodes) (hfuel : f.nodes.length < fuel) :
    (∃ conflict, insertResource fuel h x.ptr new = some (h, some conflict)) ∨
    ∃ h', insertResource fuel h x.ptr new = some (h', none) ∧
      ∃ z ∈ f.nodes, Deepest x (h new).attr z ∧
      ∃ before run after : Forest P Range, z.kids = before.append (run.append after) ∧
        (∀ a ∈ run.tops, Covers (h new).attr a) ∧
        (∀ a ∈ before.tops ++ after.tops, ¬Covers (h new).attr a) ∧
        IsTree h' (f.setKids z.ptr (before.append (cons new (h new).attr run after))) := by
  have hlen := length_kids_lt hx
  -- a child that ends before the range, or starts behind it, is not covered
  have hfar : ∀ {z : Node P Range} (before mid after : Forest P Range),
      z ∈ f.nodes → z.kids = before.append (mid.append after) →
      (∀ a ∈ before.tops, a.end_ < (h new).attr.start) →
      (∀ a ∈ after.tops, (h new).attr.end_ < a.start) →
      ∀ a ∈ before.tops ++ after.tops, ¬Covers (h new).attr a := by
    intro z before mid after hz hkids hbefore hafter a ha hcov
    have hin : a.start ≤ a.end_ := by
      refine ((ht.cut hz hkids).children.inside a ?_).1
      rw [tops_append]
      rcases mem_append.mp ha with ha | ha
      · exact mem_append_left _ ha
      · exact mem_append_right _ (mem_append_right _ ha)
    unfold Covers at hcov
    rcases mem_append.mp ha with ha | ha
    · have := hbefore a ha
      omega
    · have := hafter a ha
      omega
  unfold insertResource
  rcases descendLoop_spec ht hnew hfuel fuel x hx (by omega) with
    ⟨-, hrun⟩ | ⟨z, hz, hdeep, before, rest, hkids, hbefore, hres⟩
  · exact .inl ⟨x.ptr, by rw [hrun]; rfl⟩
  rcases hres with ⟨hrest, h', hrun, ht'⟩ | ⟨y, hy, hover, hrun⟩
  · refine .inr ⟨h', by rw [hrun]; rfl, z, hz, hdeep, before, nil, rest, hkids, by simp, ?_, ht'⟩
    exact hfar before nil rest hz hkids hbefore hrest
  rw [hrun, bind_some]
  cases rest with
  | nil => cases hy
  | cons first c kids rest =>
    obtain rfl : ⟨first, c, kids⟩ = y := Option.some.inj hy
    dsimp only
    have hcut := ht.cut hz hkids
    have hzlen := hcut.length
    rw [nodes, length_cons, length_append] at hzlen
    rcases coverLoop_spec new fuel first c kids hcut.back (by omega) with
      ⟨conflict, hcover⟩ | ⟨run, after, last, rfl, hc, hrun', hafter, hlast, hcover⟩
    · exact .inl ⟨conflict, by rw [hcover]; rfl⟩
    have hlate : ∀ a ∈ after.tops, (h new).attr.end_ < a.start := by
      have hch := hcut.children
      rw [← cons_append, tops_append] at hch
      refine late_of_head? (hch.sublist ?_) hafter
      exact (sublist_append_right _ _).trans (sublist_append_right _ _)
    have hcov : ∀ a ∈ (cons first c kids run).tops, Covers (h new).attr a := by
      exact forall_mem_cons.mpr ⟨hc, hrun'⟩
    rw [← cons_append] at hkids
    obtain ⟨h', hadopt, ht'⟩ := ht.adopt hnew hz hkids hlast hdeep.1.2.1 hbefore hcov hlate hfuel
    refine .inr ⟨h', ?_, z, hz, hdeep, before, cons first c kids run, after,
      hkids, hcov, hfar before _ after hz hkids hbefore hlate, ht'⟩
    rw [hcover, bind_some]
    dsimp only
    rw [hadopt]
    rfl

-- == the contract

lemma requestResource_succeeds_iff (ht : IsTree h f) (hnew : IsNew h f new)
    (hx : x ∈ f.nodes) (hfuel : f.nodes.length < fuel) :
    ∃ h' conflict, requestResource fuel h x.ptr new = some (h', conflict) ∧
      (conflict = none ↔ Covers x.attr (h new).attr ∧ ∀ a ∈ x.kids.tops, ¬Overlap a (h new).attr) ∧
      (conflict ≠ none → h' = h) ∧
      (conflict = none → ∃ before after : Forest P Range,
        x.kids = before.append after ∧ IsTree h' (f.setKids x.ptr
          (before.append (cons new (h new).attr nil after)))) := by
  rcases requestResource_spec ht hnew hx hfuel with
    ⟨hout, hrun⟩ | ⟨hin, before, rest, hkids, hbefore, hres⟩
  · refine ⟨h, some x.ptr, hrun, ?_, fun _ => rfl, fun h => nomatch h⟩
    exact iff_of_false (fun h => nomatch h) fun h => hout h.1
  rcases hres with ⟨hrest, h', hrun, ht'⟩ | ⟨y, hy, hover, hrun⟩
  · refine ⟨h', none, hrun, iff_of_true rfl ⟨hin, ?_⟩, fun h => absurd rfl h,
      fun _ => ⟨before, rest, hkids, ht'⟩⟩
    intro a ha hover
    unfold Overlap at hover
    rw [hkids, tops_append, mem_append] at ha
    rcases ha with ha | ha
    · have := hbefore a ha
      omega
    · have := hrest a ha
      omega
  · refine ⟨h, some y.ptr, hrun, ?_, fun _ => rfl, fun h => nomatch h⟩
    refine iff_of_false (fun h => nomatch h) fun h => h.2 y.attr ?_ hover
    rw [hkids, tops_append]
    exact mem_append_right _ (List.mem_map_of_mem (List.mem_of_head? hy))

/-- The tree is kept: a request below a node succeeds exactly if the range
lies in the node and overlaps no child; an insertion puts the resource below the
deepest node that covers it, with the children of that node that it covers; a
resource without children is released. Whatever succeeds leads to a tree, and
what fails leaves the heap as it was. -/
theorem resource_tree_kept (fuel : Nat) (ht : IsTree h f) (hfuel : f.nodes.length < fuel) :
    (∀ root ∈ f.nodes, ∀ new, IsNew h f new →
      (∃ h' conflict, requestResource fuel h root.ptr new = some (h', conflict) ∧
        (conflict = none ↔ Covers root.attr (h new).attr ∧
          ∀ a ∈ root.kids.tops, ¬Overlap a (h new).attr) ∧ (conflict ≠ none → h' = h) ∧
        (conflict = none → ∃ before after : Forest P Range,
          root.kids = before.append after ∧ IsTree h' (f.setKids root.ptr
            (before.append (cons new (h new).attr nil after))))) ∧ ((∃ conflict,
          insertResource fuel h root.ptr new = some (h, some conflict)) ∨
        ∃ h', insertResource fuel h root.ptr new = some (h', none) ∧
          ∃ z ∈ f.nodes, Deepest root (h new).attr z ∧ ∃ before run after : Forest P Range,
            z.kids = before.append (run.append after) ∧ (∀ a ∈ run.tops, Covers (h new).attr a) ∧
            (∀ a ∈ before.tops ++ after.tops, ¬Covers (h new).attr a) ∧ IsTree h' (f.setKids z.ptr
              (before.append (cons new (h new).attr run after))))) ∧
    ∀ old ∈ f.nodes, (h old.ptr).child = none → (h old.ptr).parent ≠ none →
      ∃ h', releaseResource fuel h old.ptr = some (h', 0) ∧
        ∃ y ∈ f.nodes, ∃ before rest : Forest P Range,
          y.kids = before.append (cons old.ptr old.attr nil rest) ∧
          IsTree h' (f.setKids y.ptr (before.append rest)) := by
  refine ⟨fun root hroot new hnew => ⟨?_, ?_⟩, fun old hold hleaf hpar => ?_⟩
  · exact requestResource_succeeds_iff ht hnew hroot hfuel
  · exact insertResource_spec ht hnew hroot hfuel
  · exact releaseResource_spec ht hold hleaf hpar hfuel

/-- A resource with two children, and one that covers both. -/
def twoChildren : Heap Nat
  | 0 => ⟨⟨0, 100⟩, none, none, some 1⟩
  | 1 => ⟨⟨10, 20⟩, some 0, some 2, none⟩
  | 2 => ⟨⟨30, 40⟩, some 0, none, none⟩
  | _ => ⟨⟨5, 45⟩, none, none, none⟩

def twoChildrenTree : Forest Nat Range :=
  cons 0 ⟨0, 100⟩ (cons 1 ⟨10, 20⟩ nil (cons 2 ⟨30, 40⟩ nil nil)) nil

lemma twoChildren_isTree : IsTree twoChildren twoChildrenTree := by
  refine ⟨⟨rfl, ⟨rfl, trivial, rfl, trivial, trivial⟩, trivial⟩, by decide, ?_⟩
  intro x hx
  simp only [twoChildrenTree, nodes, List.append_nil, List.nil_append,
    mem_cons, not_mem_nil, or_false] at hx
  rcases hx with rfl | rfl | rfl
  · exact .of_apart (by simp) (by simp)
  · exact .of_apart .nil (by simp)
  · exact .of_apart .nil (by simp)

/-- The three operations on it: the resource cannot be requested, as it overlaps both
children, but it can be inserted above them. -/
theorem twoChildren_kept :
    (∃ conflict, requestResource 4 twoChildren 0 3 = some (twoChildren, some conflict)) ∧
    (∃ h' f', insertResource 4 twoChildren 0 3 = some (h', none) ∧ IsTree h' f') ∧
    ∃ h', releaseResource 4 twoChildren 1 = some (h', 0) := by
  obtain ⟨hnew, hold⟩ := resource_tree_kept 4 twoChildren_isTree (by decide)
  obtain ⟨⟨h', conflict, hrun, hiff, hsame, -⟩, hins⟩ :=
    hnew ⟨0, ⟨0, 100⟩, cons 1 ⟨10, 20⟩ nil (cons 2 ⟨30, 40⟩ nil nil)⟩
      mem_cons_self 3 ⟨by decide, rfl, by decide⟩
  obtain ⟨h'', hrel, -⟩ := hold ⟨1, ⟨10, 20⟩, nil⟩ (mem_cons_of_mem _ mem_cons_self) rfl (by decide)
  refine ⟨?_, ?_, h'', hrel⟩
  · have hsome : conflict ≠ none := fun hnone =>
      (hiff.mp hnone).2 ⟨10, 20⟩ mem_cons_self (by unfold Overlap; decide)
    obtain ⟨c, rfl⟩ := Option.ne_none_iff_exists'.mp hsome
    exact ⟨c, hsame hsome ▸ hrun⟩
  · have hdone : (insertResource 4 twoChildren 0 3).map Prod.snd = some none := rfl
    rcases hins with ⟨conflict, hconf⟩ | ⟨h', hrun, z, -, -, before, kids, after, -, -, -, htree⟩
    · rw [hconf] at hdone
      cases hdone
    · exact ⟨h', _, hrun, htree⟩

-- == adjust

omit [DecidableEq P] in
lemma coveredLoop_spec (r : Range) : ∀ fuel, HasForest h par none f → f.nodes.length < fuel →
    ∃ covered, coveredLoop h r fuel (f.first none) = some covered ∧
      (covered = true ↔ ∀ c ∈ f.tops, Covers r c) := by
  induction f with
  | nil =>
    exact fun fuel _ _ => ⟨true, by cases fuel <;> rfl, iff_of_true rfl (List.forall_mem_nil _)⟩
  | cons p c kids rest _ ih =>
    intro fuel hf hfuel
    rcases fuel with _ | fuel
    · omega
    simp only [nodes, length_cons, length_append] at hfuel
    obtain ⟨covered, hrun, hcov⟩ := ih fuel hf.2.2 (by omega)
    rw [first_cons, coveredLoop, hf.1]
    split_ifs with hout
    · refine ⟨false, rfl, iff_of_false Bool.false_ne_true fun hall => ?_⟩
      have hfirst := hall c mem_cons_self
      exact hout.elim (not_lt.mpr hfirst.1) (not_lt.mpr hfirst.2)
    · rw [not_or, not_lt, not_lt] at hout
      refine ⟨covered, hrun, hcov.trans ⟨fun h => forall_mem_cons.mpr ⟨hout, h⟩, fun h => ?_⟩⟩
      exact (forall_mem_cons.mp h).2

lemma le_end_of_not_wrap {w : Nat} {start size : BitVec w}
    (hno : ¬start.uaddOverflow (size - 1)) : start.toNat ≤ (start + size - 1).toNat := by
  rw [BitVec.sub_eq_add_neg, BitVec.add_assoc, ← BitVec.sub_eq_add_neg,
    BitVec.toNat_add_of_not_uaddOverflow hno]
  exact Nat.le_add_right _ _

lemma end_lt_of_wrap {w : Nat} {start size : BitVec w} (hwrap : start.uaddOverflow (size - 1)) :
    (start + size - 1).toNat < start.toNat := by
  rw [BitVec.sub_eq_add_neg, BitVec.add_assoc, ← BitVec.sub_eq_add_neg, BitVec.toNat_add]
  have hsize := (size - 1).isLt
  simp only [BitVec.uaddOverflow, ge_iff_le, decide_eq_true_eq] at hwrap
  rw [Nat.mod_eq_sub_mod hwrap, Nat.mod_eq_of_lt (by omega)]
  omega

/-- What an adjustment is refused for: the parent does not cover the new range, a
child is outside, or a sibling is in the way. -/
def Refused (r parent : Range) (before kids rest : List Range) : Prop :=
  ¬Covers parent r ∨ (∃ a ∈ kids, ¬Covers r a) ∨ (∃ a ∈ before, r.start ≤ a.end_) ∨
    ∃ a ∈ rest, a.start ≤ r.end_

/-- An adjustment changes the range of the resource, unless it is refused and
changes nothing. -/
lemma adjustResource_eq {w : Nat} {y : Node P Range} (start size : BitVec w) (ht : IsTree h f)
    (hy : y ∈ f.nodes) (hkids : y.kids = before.append (cons x.ptr x.attr x.kids rest))
    (hfuel : f.nodes.length < fuel) :
    let r : Range := ⟨start.toNat, (start + size - 1).toNat⟩
    let refused := Refused r y.attr before.tops x.kids.tops rest.tops
    (refused → adjustResource fuel h x.ptr start size = some (h, -ebusy)) ∧
    (¬refused → adjustResource fuel h x.ptr start size
      = some (update h x.ptr { h x.ptr with attr := r }, 0)) := by
  intro r refused
  have hcut := ht.cut hy hkids
  have hc := hcut.children
  have hlen := hcut.length
  rw [nodes, length_cons, length_append] at hlen
  obtain ⟨hcell, hkidsHas, hrest⟩ := hcut.back
  have hxb : x.ptr ∉ before.ptrs := fun hb => hcut.disjoint hb (by simp)
  obtain ⟨covered, hcovered, hcov⟩ := coveredLoop_spec r fuel hkidsHas (by omega)
  have hsib : ((rest.first none).any fun sibling => (h sibling).attr.start ≤ r.end_) = true ↔
      ∃ a ∈ rest.tops, a.start ≤ r.end_ := by
    have hafter := hc.sublist ((List.sublist_cons_self _ _).trans (sublist_append_right _ _))
    cases rest with
    | nil => simp
    | cons p c kids rest =>
      rw [first_cons, Option.any_some, decide_eq_true_eq, hrest.1]
      refine ⟨fun hle => ⟨c, mem_cons_self, hle⟩, ?_⟩
      rintro ⟨a, ha, hle⟩
      rcases mem_cons.mp ha with rfl | ha
      · exact hle
      · exact Nat.le_trans ((List.pairwise_cons.mp hafter.sorted).1 a ha) hle
  suffices hcases : refused ∧ adjustResource fuel h x.ptr start size = some (h, -ebusy) ∨
      ¬refused ∧ adjustResource fuel h x.ptr start size
        = some (update h x.ptr { h x.ptr with attr := r }, 0) by
    rcases hcases with ⟨href, heq⟩ | ⟨hno, heq⟩
    · exact ⟨fun _ => heq, fun hno => absurd href hno⟩
    · exact ⟨fun href => absurd href hno, fun _ => heq⟩
  have hparent : (h x.ptr).parent = some y.ptr := by rw [hcell]
  unfold adjustResource
  rw [hparent, bind_some, (ht.node hy).1, hcut.child, hcell, first_cons]
  dsimp only
  rw [hcovered, bind_some]
  split_ifs with hin hall hany hfirst
  · refine .inl ⟨.inl fun hcover => ?_, rfl⟩
    exact hin.elim (not_lt.mpr hcover.1) (not_lt.mpr hcover.2)
  · exact .inl ⟨.inr (.inr (.inr (hsib.mp hany))), rfl⟩
  · rw [not_or, not_lt, not_lt] at hin
    cases before with
    | nil =>
      refine .inr ⟨?_, rfl⟩
      rintro (hout | ⟨a, ha, hout⟩ | ⟨a, ha, -⟩ | hlate)
      · exact hout hin
      · exact hout (hcov.mp hall a ha)
      · exact not_mem_nil ha
      · exact hany (hsib.mpr hlate)
    | cons p c kids before =>
      cases hfirst
      exact absurd (by simp) hxb
  · rw [not_or, not_lt, not_lt] at hin
    cases before with
    | nil => exact absurd rfl hfirst
    | cons p c kids before =>
      simp only [ptrs_cons, mem_cons, mem_append, not_or] at hxb
      rw [nodes, length_cons, length_append] at hlen
      obtain ⟨last, hfind, -, hmem, hends⟩ :=
        findLoop_spec fuel p c kids hcut.front hxb.2.2 (by omega)
      rw [first_cons, bind_some, hfind, map_some]
      split_ifs with hend
      · exact .inl ⟨.inr (.inr (.inl ⟨_, hmem, hend⟩)), rfl⟩
      · refine .inr ⟨?_, rfl⟩
        have hbelow := hends _ (hc.sublist (List.sublist_append_left _ _))
        rintro (hout | ⟨a, ha, hout⟩ | ⟨a, ha, hle⟩ | hlate)
        · exact hout hin
        · exact hout (hcov.mp hall a ha)
        · exact hend (le_trans hle (hbelow a ha))
        · exact hany (hsib.mpr hlate)
  · refine .inl ⟨.inr (.inl ?_), rfl⟩
    by_contra hnone
    exact hall (hcov.mpr fun a ha => not_not.mp fun hout => hnone ⟨a, ha, hout⟩)

/-- An adjustment fails and changes nothing, or it changes the range of the
resource. This range is then in its place among the siblings and has the children
in it, for every call that succeeds, if and only if it does not wrap or it is
refused: because of the parent, of a child or of a sibling. -/
theorem adjustResource_keeps_iff {w : Nat} {y : Node P Range} (start size : BitVec w)
    (ht : IsTree h f) (hx : x ∈ f.nodes) (hy : y ∈ f.nodes)
    (hkids : y.kids = before.append (cons x.ptr x.attr x.kids rest))
    (hfuel : f.nodes.length < fuel) :
    let r : Range := ⟨start.toNat, (start + size - 1).toNat⟩
    let adjusted := update h x.ptr { h x.ptr with attr := r }
    (adjustResource fuel h x.ptr start size = some (h, -ebusy) ∨
      adjustResource fuel h x.ptr start size = some (adjusted, 0)) ∧
    ((adjustResource fuel h x.ptr start size = some (adjusted, 0) →
        Children y.attr (before.tops ++ r :: rest.tops) ∧ Children r x.kids.tops) ↔
      ¬start.uaddOverflow (size - 1) ∨ ¬Covers y.attr r ∨ x.kids ≠ nil ∨
        (∃ a ∈ before.tops, r.start ≤ a.end_) ∨ ∃ a ∈ rest.tops, a.start ≤ r.end_) := by
  intro r adjusted
  obtain ⟨hbusy, hok⟩ := adjustResource_eq start size ht hy hkids hfuel
  have hc := (ht.cut hy hkids).children
  have hold := ht.children x hx
  refine ⟨?_, ?_, ?_⟩
  · exact (em _).imp hbusy hok
  · intro hkept
    by_contra hcond
    simp only [not_or, not_not] at hcond
    obtain ⟨hwrap, hin, hnokids, hbefore, hrest⟩ := hcond
    -- nothing refuses the inverted range
    have hno : ¬Refused r y.attr before.tops x.kids.tops rest.tops := by
      rintro (hout | ⟨a, ha, -⟩ | hb | ha)
      · exact hout hin
      · rw [hnokids] at ha
        exact not_mem_nil ha
      · exact hbefore hb
      · exact hrest ha
    have hle := ((hkept (hok hno)).1.inside r (mem_append_right _ mem_cons_self)).1
    exact absurd (end_lt_of_wrap hwrap) (not_lt.mpr hle)
  · intro hcond hdone
    have hno : ¬Refused r y.attr before.tops x.kids.tops rest.tops := by
      intro href
      have heq := (hbusy href).symm.trans hdone
      have hcode : -ebusy = 0 := congrArg Prod.snd (Option.some.inj heq)
      exact absurd hcode (by decide)
    simp only [Refused, not_or, not_not, not_exists, not_and, not_le] at hno
    obtain ⟨hin, hall, hearly, hlate⟩ := hno
    have hle : r.start ≤ r.end_ := by
      rcases hcond with hno | hout | hkid | ⟨a, ha, hend⟩ | ⟨a, ha, hstart⟩
      · exact le_end_of_not_wrap hno
      · exact absurd hin hout
      · obtain ⟨a, ha⟩ : ∃ a, a ∈ x.kids.tops := by
          cases hkids' : x.kids with
          | nil => exact absurd hkids' hkid
          | cons p c kids rest => exact ⟨c, mem_cons_self⟩
        have hcov := hall a ha
        exact le_trans hcov.1 (le_trans (hold.inside a ha).1 hcov.2)
      · exact absurd (hearly a ha) (not_lt.mpr hend)
      · exact absurd (hlate a ha) (not_lt.mpr hstart)
    exact ⟨.insert [x.attr] hc hle hin hearly hlate, hold.sorted, hold.disjoint,
      fun a ha => ⟨(hold.inside a ha).1, hall a ha⟩⟩

theorem twoChildren_adjusted :
    Children ⟨0, 100⟩ [⟨10, 20⟩, ⟨25, 44⟩] ∧ Children ⟨25, 44⟩ [] := by
  have hx : (⟨2, ⟨30, 40⟩, nil⟩ : Node Nat Range) ∈ twoChildrenTree.nodes := by
    simp [twoChildrenTree, nodes]
  have hkids : cons 1 ⟨10, 20⟩ nil (cons 2 ⟨30, 40⟩ nil nil)
      = (cons 1 (⟨10, 20⟩ : Range) nil nil).append (cons 2 ⟨30, 40⟩ nil nil) := rfl
  obtain ⟨hdone, hkept⟩ := adjustResource_keeps_iff (25 : BitVec 32) 20 twoChildren_isTree hx
    mem_cons_self hkids (show 3 < 4 by decide)
  rcases hdone with hbusy | hdone
  · exact absurd (congrArg (Option.map Prod.snd) hbusy) (by decide)
  · exact hkept.mpr (.inl (by decide)) hdone

theorem twoChildren_inverted : (adjustResource 4 twoChildren 2 (30 : BitVec 32) 0).map
    (fun result => ((result.1 2).attr, result.2)) = some (⟨30, 29⟩, 0) := by
  decide

end BoardStack.Resource
