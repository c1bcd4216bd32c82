/-
The fragment tree shows the newest data for every byte.

The calls on an inode are nodes added to it and truncations, with the memory
the allocator hands out for fragments among their inputs. `newest` says what
a history of calls means for a byte: the last node written over it, unless
the file was cut at or below it since. The result is that after any number
of calls the tree holds just that, without gaps, and that the nodes' counts
and obsolete marks agree with it.
-/
import BoardStack.Base.Run
import BoardStack.Jffs2.Proofs.Dnode

namespace BoardStack.Jffs2

open Base Rbtree Function List

variable {a : WordSize}

-- == the calls

/-- A call on an inode. A node to add is a `struct jffs2_full_dnode` its
caller has just filled in, for a node on flash with some flags; the two
chunks are what `jffs2_alloc_node_frag` returns if it is called. -/
inductive Op (a : WordSize)
  | add (fn : Nat) (d : FullDnode) (flags : RefFlags) (m₁ m₂ : Chunk a)
  | truncate (size : Nat)

/-- The full node in memory, as the caller hands it over. -/
def Inode.withNode (s : Inode a) (fn : Nat) (d : FullDnode) (flags : RefFlags) : Inode a :=
  { s with
    nodes := update s.nodes fn (some d)
    raw := update s.raw fn flags }

def step (fuel : Nat) (s : Inode a) : Op a → Option (Int × Inode a)
  | .add fn d flags m₁ m₂ =>
    jffs2AddFullDnodeToInode fuel (s.withNode fn d flags) fn (some m₁) (some m₂)
  | .truncate size =>
    (jffs2TruncateFragtree fuel s size).map fun r => ((r.1 : Int), r.2)

def Added (past : List (Op a)) (fn : Nat) : Prop := ∃ d flags m₁ m₂, .add fn d flags m₁ m₂ ∈ past

/-- What the callers and the allocator promise: a node is not empty, ends
below `2 ^ 32`, is new and not obsolete, and the memory is not in use. -/
def pre (past : List (Op a)) (s : Inode a) : Op a → Prop
  | .add fn d flags m₁ m₂ =>
    1 ≤ d.size ∧ d.ofs + d.size < 2 ^ 32 ∧ ¬ Added past fn ∧
      flags ≠ .obsolete ∧ IsAddr m₁.addr ∧ IsAddr m₂.addr ∧
      m₁.addr ≠ m₂.addr ∧ s.frags m₁.addr = none ∧
      s.frags m₂.addr = none
  | .truncate _ => True

/-- Adding a node succeeds; a truncation returns a size up to the one it was
given. -/
def Result : Op a → Int → Prop
  | .add .., ret => ret = 0
  | .truncate size, ret => ret ≤ size

/-- The node a byte is read from after some calls, the newest first: the
last one added that contains it, if the file was not cut at or below it
since. -/
def newest : List (Op a) → Nat → Option Nat
  | [], _ => none
  | .add fn d _ _ _ :: past, b =>
    if d.ofs ≤ b ∧ b < d.ofs + d.size then some fn else newest past b
  | .truncate size :: past, b => if size ≤ b then none else newest past b

-- == the result

/-- What is in the tree after some calls. In the order `rb_first` and
`rb_next` give, the fragments fill the file from 0 to its end, none of them
empty, and each byte's fragment refers to the newest node; a node that was
added counts its fragments, and is obsolete exactly when there are none. -/
structure ShowsNewest (fuel : Nat) (s : Inode a) (past : List (Op a))
    (l : List (Word a)) (stop : Nat) : Prop where
  order : Walks fuel s.fragtree l
  shows : (segment s).Shows (newest past) 0 l stop
  beyond : ∀ b, stop ≤ b → newest past b = none
  lookup : ∀ b, b < stop → ∃ p ∈ l, jffs2LookupNodeFrag fuel s b = some p ∧ (s.frag p).ofs ≤ b ∧
      b < (s.frag p).ofs + (s.frag p).size ∧
      (s.frag p).node = newest past b
  count : ∀ fn d, Added past fn → s.nodes fn = some d → d.frags = refCount s l fn
  live : ∀ fn, 0 < refCount s l fn → Added past fn ∧ s.nodes fn ≠ none
  obsolete : ∀ fn, Added past fn → (s.raw fn = .obsolete ↔ refCount s l fn = 0)

section

variable {s : Inode a} {past : List (Op a)} {l : List (Word a)} {stop fuel : Nat}

lemma FileOk.showsNewest (h : FileOk s (Added past) (newest past) l stop)
    (hfuel : 2 ^ 32 ≤ fuel) : ShowsNewest fuel s past l stop := by
  have hlen : l.length < fuel := lt_of_lt_of_le h.list.length_lt hfuel
  refine ⟨h.list.tree.walks hlen, h.list.shows, h.beyond, fun b hb => ?_,
    fun fn d hadd hd => ?_, fun fn hn => ?_, fun fn hadd => ?_⟩
  · rcases jffs2LookupNodeFrag_spec h.list b hlen with
      ⟨p, l1, l2, hrun, rfl, hlo, hhi⟩ | ⟨-, hstop⟩
    · exact ⟨p, by simp, hrun, hlo, hhi, (h.list.around.2.2 b hlo hhi).symm⟩
    · omega
  · by_cases hn : refCount s l fn = 0
    · simp [(h.nodes.dead fn hadd hn).2] at hd
    · obtain ⟨-, -, d', hd', hfrags⟩ := h.nodes.live fn (Nat.pos_of_ne_zero hn)
      obtain rfl : d = d' := Option.some.inj (hd.symm.trans hd')
      exact hfrags
  · obtain ⟨hadd, -, d, hd, -⟩ := h.nodes.live fn hn
    exact ⟨hadd, by simp [hd]⟩
  · constructor
    · intro hraw
      by_contra hn
      exact (h.nodes.live fn (Nat.pos_of_ne_zero hn)).2.1 hraw
    · exact fun hn => (h.nodes.dead fn hadd hn).1

variable {g : Nat → Option Nat}

lemma FileOk.withNode {added : Nat → Prop} {fn : Nat} (h : FileOk s added g l stop)
    (hnew : ¬ added fn) (d : FullDnode) (flags : RefFlags) :
    FileOk (s.withNode fn d flags) added g l stop := by
  refine ⟨⟨h.list.tree, h.list.shows, h.list.bound⟩,
    ⟨fun n hn => ?_, fun n hadd hn => ?_⟩, h.beyond⟩
  · obtain ⟨hadd, hlive⟩ := h.nodes.live n hn
    have hne : n ≠ fn := fun e => hnew (e ▸ hadd)
    refine ⟨hadd, ?_⟩
    show update s.raw fn flags n ≠ _ ∧ ∃ d', update s.nodes fn (some d) n = some d' ∧ _
    rw [update_of_ne hne, update_of_ne hne]
    exact hlive
  · have hne : n ≠ fn := fun e => hnew (e ▸ hadd)
    show update s.raw fn flags n = _ ∧ update s.nodes fn (some d) n = none
    rw [update_of_ne hne, update_of_ne hne]
    exact h.nodes.dead n hadd hn

lemma added_add {fn : Nat} {d : FullDnode} {flags : RefFlags} {m₁ m₂ : Chunk a} {n : Nat} :
    Added (.add fn d flags m₁ m₂ :: past) n ↔ n = fn ∨ Added past n := by
  constructor
  · rintro ⟨d', flags', m1', m2', hmem⟩
    rcases mem_cons.mp hmem with heq | hmem
    · exact .inl (Op.add.inj heq).1
    · exact .inr ⟨d', flags', m1', m2', hmem⟩
  · rintro (rfl | ⟨d', flags', m1', m2', hmem⟩)
    · exact ⟨d, flags, m₁, m₂, mem_cons_self⟩
    · exact ⟨d', flags', m1', m2', mem_cons_of_mem _ hmem⟩

lemma added_truncate {size n : Nat} : Added (.truncate size :: past) n ↔ Added past n := by
  constructor
  · rintro ⟨d, flags, m₁, m₂, hmem⟩
    rcases mem_cons.mp hmem with heq | hmem
    · cases heq
    · exact ⟨d, flags, m₁, m₂, hmem⟩
  · rintro ⟨d, flags, m₁, m₂, hmem⟩
    exact ⟨d, flags, m₁, m₂, mem_cons_of_mem _ hmem⟩

lemma FragList.fresh {p : Word a} (h : FragList s g l stop) (hp : s.frags p = none) : p ∉ l := by
  intro hmem
  simp [h.frags_eq hmem] at hp

lemma step_spec (hfuel : 2 ^ 32 + 2 ≤ fuel) (op : Op a)
    (h : FileOk s (Added past) (newest past) l stop) (hpre : pre past s op) :
    ∃ ret s', step fuel s op = some (ret, s') ∧ Result op ret ∧
      ∃ l' stop', FileOk s' (Added (op :: past)) (newest (op :: past)) l' stop' := by
  cases op with
  | add fn d flags m₁ m₂ =>
    obtain ⟨hsize, hend, hnew, hflags, haddr1, haddr2, hne, hm1, hm2⟩ := hpre
    have hraw : (s.withNode fn d flags).raw fn ≠ .obsolete := by
      show update s.raw fn flags fn ≠ _
      rwa [update_self]
    have hfresh : m₂.addr ∉ m₁.addr :: l := by
      rw [mem_cons, not_or]
      exact ⟨hne.symm, h.list.fresh hm2⟩
    obtain ⟨s', l', stop', hrun, hfile⟩ := jffs2AddFullDnodeToInode_spec (h.withNode hnew d flags)
      (update_self ..) hraw hnew hsize hend
      ⟨haddr1, h.list.fresh hm1⟩ ⟨haddr2, hfresh⟩ hfuel
    refine ⟨0, s', hrun, rfl, l', stop', ?_⟩
    rw [show Added (.add fn d flags m₁ m₂ :: past)
      = fun n => n = fn ∨ Added past n from funext fun n => propext added_add]
    exact hfile
  | truncate size =>
    obtain ⟨s', l', hrun, hfile⟩ := jffs2TruncateFragtree_spec h size hfuel
    refine ⟨(min stop size : Nat), s', ?_, ?_, l', min stop size, ?_⟩
    · rw [step, hrun, Option.map_some]
    · exact Int.ofNat_le.mpr (Nat.min_le_right stop size)
    · rw [show Added (.truncate size :: past) = Added past from
        funext fun n => propext added_truncate]
      exact hfile

end

/-- From an empty tree, any calls that keep the promises succeed and leave a
tree that shows the newest data. -/
theorem fragtree_showsNewest {s : Inode a} {ops : List (Op a)} {fuel : Nat}
    (hfuel : 2 ^ 32 + 2 ≤ fuel) (hempty : s.fragtree.rbNode = 0)
    (hok : Permitted (step fuel) pre [] s ops) :
    ∃ rets s', run (step fuel) s ops = some (rets, s') ∧ List.Forall₂ Result ops rets ∧
      ∃ l stop, ShowsNewest fuel s' ops.reverse l stop := by
  have hinit : FileOk s (Added ([] : List (Op a))) (newest ([] : List (Op a))) [] 0 := by
    refine ⟨⟨isTree_nil.mpr hempty, rfl, by omega⟩,
      ⟨fun n hn => absurd hn (lt_irrefl 0), ?_⟩, fun _ _ => rfl⟩
    rintro n ⟨d, flags, m₁, m₂, hmem⟩
    cases hmem
  have hstep : ∀ (past : List (Op a)) (s : Inode a) (op : Op a),
      (∃ l stop, FileOk s (Added past) (newest past) l stop) →
      pre past s op →
      ∃ ret s', step fuel s op = some (ret, s') ∧ Result op ret ∧
        ∃ l stop, FileOk s' (Added (op :: past)) (newest (op :: past)) l
          stop :=
    fun past s op ⟨l, stop, h⟩ hpre => step_spec hfuel op h hpre
  obtain ⟨rets, s', hrun, hresult, l, stop, hfile⟩ :=
    run_invariant hstep ops [] s ⟨[], 0, hinit⟩ hok
  rw [append_nil] at hfile
  exact ⟨rets, s', hrun, hresult, l, stop, hfile.showsNewest (by omega)⟩

def noData : Inode .w32 where
  fragtree := ⟨fun _ => none, 0⟩
  frags _ := none
  nodes _ := none
  raw _ := .unchecked

/-- A node of ten bytes, cut to four. -/
theorem fragtree_showsNewest_noData :
    ∃ rets s', run (step (2 ^ 32 + 2)) noData
        [.add 7 ⟨0, 10, 0⟩ .normal ⟨4, ⟨0, 0, 0⟩⟩ ⟨8, ⟨0, 0, 0⟩⟩, .truncate 4] = some (rets, s') ∧
      ∃ l stop, ShowsNewest (2 ^ 32 + 2) s'
        [.truncate 4, .add 7 ⟨0, 10, 0⟩ .normal ⟨4, ⟨0, 0, 0⟩⟩ ⟨8, ⟨0, 0, 0⟩⟩] l
        stop := by
  have hok : Permitted (step (2 ^ 32 + 2)) pre [] noData
      [.add 7 ⟨0, 10, 0⟩ .normal ⟨4, ⟨0, 0, 0⟩⟩ ⟨8, ⟨0, 0, 0⟩⟩, .truncate 4] := by
    refine ⟨⟨by decide, by decide, ?_, by decide, by decide, by decide,
      by decide, rfl, rfl⟩, fun _ _ _ => ⟨trivial, fun _ _ _ => trivial⟩⟩
    rintro ⟨d, flags, m₁, m₂, hmem⟩
    cases hmem
  obtain ⟨rets, s', hrun, -, l, stop, hshows⟩ := fragtree_showsNewest le_rfl rfl hok
  exact ⟨rets, s', hrun, l, stop, hshows⟩

end BoardStack.Jffs2
