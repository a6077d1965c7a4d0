import Mathlib

/-!
# Forests on a heap

A heap is the list of its nodes in the order of their creation, and a node refers to other nodes by
their places. The heap is a forest if every node holds later nodes only and no node is held twice
(`Forest`); then nothing is its own descendant (`Forest.irrefl`). The creation of a node and the
linking of a node that nothing holds keep this (`Forest.append_leaf`, `Forest.link`). The node
created first after a point in time is not held as long as the older nodes are left alone
(`Forest.notMem_children`), and what is reached from older nodes then stays the same
(`Forest.reach_of_frame`).
-/

namespace Lib

variable {α : Type} (children : α → List ℕ)

/-- The node at `p` refers to `q`. -/
def Holds (heap : List α) (p q : ℕ) : Prop := ∃ o, heap[p]? = some o ∧ q ∈ children o

/-- Every node refers to later nodes that exist, and no two references are to the same node. -/
structure Forest (heap : List α) : Prop where
  /-- A reference leads from a node to a later one. -/
  forward : ∀ p q, Holds children heap p q → p < q ∧ q < heap.length
  /-- No node is referred to twice. -/
  nodup : (heap.flatMap children).Nodup

/-- The nodes of `heap` outside `c` are the same in `heap'`, which may have more. -/
structure Frame (c : Set ℕ) (heap heap' : List α) : Prop where
  /-- No node is gone. -/
  length_le : heap.length ≤ heap'.length
  /-- A node outside `c` is as it was. -/
  get : ∀ i, i < heap.length → i ∉ c → heap'[i]? = heap[i]?

variable {children} {heap heap' heap'' : List α} {c : Set ℕ}

/-- What is referred to, node by node. -/
theorem mem_flatMap_children {q : ℕ} :
    q ∈ heap.flatMap children ↔ ∃ p, Holds children heap p q := by
  rw [List.mem_flatMap]
  constructor
  · rintro ⟨o, ho, hq⟩
    obtain ⟨p, hp⟩ := List.mem_iff_getElem?.mp ho
    exact ⟨p, o, hp, hq⟩
  · rintro ⟨p, o, hp, hq⟩
    exact ⟨o, List.mem_of_getElem? hp, hq⟩

/-- A heap with nothing in it is a forest. -/
theorem Forest.nil : Forest children ([] : List α) where
  forward p q h := by
    obtain ⟨o, ho, -⟩ := h
    simp at ho
  nodup := List.nodup_nil

/-! ## Frames -/

/-- Nothing changes where nothing is done. -/
theorem Frame.refl (c : Set ℕ) (heap : List α) : Frame c heap heap := ⟨le_rfl, fun _ _ _ => rfl⟩

/-- What two steps leave alone, both together do. -/
theorem Frame.trans (h : Frame c heap heap') (h' : Frame c heap' heap'') : Frame c heap heap'' where
  length_le := h.length_le.trans h'.length_le
  get i hi hc := (h'.get i (hi.trans_le h.length_le) hc).trans (h.get i hi hc)

/-- A step that may change less may change more. -/
theorem Frame.mono {c' : Set ℕ} (hsub : c ⊆ c') (h : Frame c heap heap') : Frame c' heap heap' :=
  ⟨h.length_le, fun i hi hc => h.get i hi fun hi' => hc (hsub hi')⟩

/-- A new node leaves the others alone. -/
theorem Frame.append (c : Set ℕ) (heap : List α) (o : α) : Frame c heap (heap ++ [o]) where
  length_le := by simp
  get i hi _ := List.getElem?_append_left hi

/-- A change of one node leaves the others alone. -/
theorem Frame.set (heap : List α) (p : ℕ) (o : α) : Frame {p} heap (heap.set p o) where
  length_le := by simp
  get i _ hne := List.getElem?_set_ne fun h => hne h.symm

/-- Changes to a node that did not exist leave the older ones alone. -/
theorem Frame.of_append {o : α} (h : Frame {heap.length} (heap ++ [o]) heap') :
    Frame ∅ heap heap' where
  length_le := (Frame.append ∅ heap o).length_le.trans h.length_le
  get i hi _ := by
    rw [h.get i (by simp; omega) (by simpa using hi.ne), List.getElem?_append_left hi]

/-! ## What the operations keep -/

/-- A new node that refers to nothing adds no reference. -/
theorem holds_append_leaf {o : α} (ho : children o = []) {p q : ℕ} :
    Holds children (heap ++ [o]) p q ↔ Holds children heap p q := by
  constructor
  · rintro ⟨o', ho', hq⟩
    rw [List.getElem?_append] at ho'
    split_ifs at ho' with hp
    · exact ⟨o', ho', hq⟩
    · -- The node at `p` is the new one.
      have hmem := List.mem_of_getElem? ho'
      rw [List.mem_singleton] at hmem
      rw [hmem, ho] at hq
      cases hq
  · rintro ⟨o', ho', hq⟩
    obtain ⟨hp, -⟩ := List.getElem?_eq_some_iff.mp ho'
    exact ⟨o', by rwa [List.getElem?_append_left hp], hq⟩

/-- Creating a node that refers to nothing. -/
theorem Forest.append_leaf (h : Forest children heap) {o : α} (ho : children o = []) :
    Forest children (heap ++ [o]) where
  forward p q hpq := by
    have hlt := h.forward p q ((holds_append_leaf ho).mp hpq)
    rw [List.length_append]
    exact ⟨hlt.1, by omega⟩
  nodup := by simpa [ho] using h.nodup

variable (children) in
/-- The references of one node, and those of the rest. -/
theorem exists_rest {p : ℕ} {o : α} (ho : heap[p]? = some o) : ∃ rest : List ℕ,
    (heap.flatMap children).Perm (children o ++ rest) ∧
    ∀ o', ((heap.set p o').flatMap children).Perm (children o' ++ rest) := by
  obtain ⟨hp, hget⟩ := List.getElem?_eq_some_iff.mp ho
  refine ⟨(heap.take p).flatMap children ++ (heap.drop (p + 1)).flatMap children, ?_, fun o' => ?_⟩
  · have hsplit : heap = heap.take p ++ o :: heap.drop (p + 1) := by
      rw [← hget, ← List.drop_eq_getElem_cons hp, List.take_append_drop]
    conv_lhs => rw [hsplit]
    rw [List.flatMap_append, List.flatMap_cons]
    exact List.perm_append_comm_assoc _ _ _
  · rw [List.set_eq_take_append_cons_drop, if_pos hp, List.flatMap_append, List.flatMap_cons]
    exact List.perm_append_comm_assoc _ _ _

/-- The references after one node has been replaced are those of the new node and of the others. -/
theorem holds_set {p p' q : ℕ} {o' : α} (h : Holds children (heap.set p o') p' q) :
    (p' = p ∧ q ∈ children o') ∨ Holds children heap p' q := by
  obtain ⟨o, ho, hq⟩ := h
  rw [List.getElem?_set] at ho
  split_ifs at ho with hp hlt
  · cases ho
    exact .inl ⟨hp.symm, hq⟩
  · exact .inr ⟨o, ho, hq⟩

/-- Replacing a node by one with the same references. -/
theorem Forest.set_perm (h : Forest children heap) {p : ℕ} {o o' : α} (ho : heap[p]? = some o)
    (hperm : (children o').Perm (children o)) : Forest children (heap.set p o') where
  forward p' q hpq := by
    rw [List.length_set]
    rcases holds_set hpq with ⟨rfl, hq⟩ | hpq
    · exact h.forward p' q ⟨o, ho, hperm.subset hq⟩
    · exact h.forward p' q hpq
  nodup := by
    obtain ⟨rest, hold, hnew⟩ := exists_rest children ho
    have hsame := (hnew o').trans ((hperm.append_right rest).trans hold.symm)
    exact hsame.nodup_iff.mpr h.nodup

/-- Linking a later node that nothing refers to. -/
theorem Forest.link (h : Forest children heap) {p q : ℕ} {o o' : α} (ho : heap[p]? = some o)
    (hperm : (children o').Perm (q :: children o)) (hpq : p < q) (hq : q < heap.length)
    (hfree : q ∉ heap.flatMap children) : Forest children (heap.set p o') where
  forward p' q' hpq' := by
    rw [List.length_set]
    rcases holds_set hpq' with ⟨rfl, hq'⟩ | hpq'
    · rcases List.mem_cons.mp (hperm.subset hq') with rfl | hq'
      · exact ⟨hpq, hq⟩
      · exact h.forward p' q' ⟨o, ho, hq'⟩
    · exact h.forward p' q' hpq'
  nodup := by
    obtain ⟨rest, hold, hnew⟩ := exists_rest children ho
    have hall : ((heap.set p o').flatMap children).Perm (q :: heap.flatMap children) :=
      (hnew o').trans ((hperm.append_right rest).trans (hold.symm.cons q))
    exact hall.nodup_iff.mpr (List.nodup_cons.mpr ⟨hfree, h.nodup⟩)

/-- The first node created after a point in time is not referred to while the older nodes are left
alone: only they could come before it. -/
theorem Forest.notMem_children (h : Forest children heap) (h' : Forest children heap')
    (hframe : Frame ∅ heap heap') : heap.length ∉ heap'.flatMap children := by
  intro hmem
  obtain ⟨p, o, ho, hq⟩ := mem_flatMap_children.mp hmem
  have hlt := (h'.forward p _ ⟨o, ho, hq⟩).1
  rw [hframe.get p hlt (Set.notMem_empty p)] at ho
  exact lt_irrefl _ (h.forward p _ ⟨o, ho, hq⟩).2

/-! ## What is reached -/

/-- What is reached from a node in one step or more is a later node that exists. -/
theorem Forest.lt_of_transGen (h : Forest children heap) {p q : ℕ}
    (hpq : Relation.TransGen (Holds children heap) p q) : p < q ∧ q < heap.length := by
  induction hpq with
  | single hstep => exact h.forward _ _ hstep
  | tail _ hstep ih =>
    have hlast := h.forward _ _ hstep
    exact ⟨ih.1.trans hlast.1, hlast.2⟩

/-- No node is its own descendant. -/
theorem Forest.irrefl (h : Forest children heap) (p : ℕ) :
    ¬ Relation.TransGen (Holds children heap) p p :=
  fun hp => lt_irrefl p (h.lt_of_transGen hp).1

/-- What is reached from a node is not before it. -/
theorem Forest.le_of_reach (h : Forest children heap) {p q : ℕ} (hp : p < heap.length)
    (hpq : Relation.ReflTransGen (Holds children heap) p q) : p ≤ q ∧ q < heap.length := by
  rcases Relation.reflTransGen_iff_eq_or_transGen.mp hpq with rfl | hpq
  · exact ⟨le_rfl, hp⟩
  · exact ⟨(h.lt_of_transGen hpq).1.le, (h.lt_of_transGen hpq).2⟩

/-- What is reached from an old node is what was reached from it before the newer nodes existed. -/
theorem Forest.reach_of_frame (h : Forest children heap) (hframe : Frame ∅ heap heap') {p q : ℕ}
    (hp : p < heap.length) (hpq : Relation.ReflTransGen (Holds children heap') p q) :
    Relation.ReflTransGen (Holds children heap) p q := by
  induction hpq with
  | refl => exact .refl
  | @tail r q _ hstep ih =>
    obtain ⟨o, ho, hq⟩ := hstep
    rw [hframe.get r (h.le_of_reach hp ih).2 (Set.notMem_empty r)] at ho
    exact ih.tail ⟨o, ho, hq⟩

end Lib
