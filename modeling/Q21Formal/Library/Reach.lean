import Mathlib.Tactic

/-!
# Reaching every successor

Two ways code walks a finite graph without recursion: a stack whose items are marked as they leave
it, and a vector read from the front while successors are pushed at its end.  What is collected is
closed under the successors.
-/

namespace Q21Formal.Library.Reach
open List

variable {α : Type*} [DecidableEq α]

section
variable (nodes : Finset α) (next : α → List α) (stack : List α)

/-- The successors of the nodes of a set, counted with repetition. -/
def edges (nodes : Finset α) : Nat := ∑ node ∈ nodes, (next node).length

theorem edges_sdiff_insert {nodes marked : Finset α} {item : α} (inside : item ∈ nodes)
    (fresh : item ∉ marked) :
    edges next (nodes \ insert item marked) + (next item).length = edges next (nodes \ marked) := by
  rw [Finset.sdiff_insert]
  exact Finset.sum_erase_add _ _ (Finset.mem_sdiff.mpr ⟨inside, fresh⟩)

/-! ## A stack -/

/-- Marks what is reached inside `nodes` from the items of a stack, its top first. -/
def markFrom (nodes : Finset α) (next : α → List α) : Nat → Finset α → List α → Finset α
  | 0, marked, _ => marked
  | _ + 1, marked, [] => marked
  | fuel + 1, marked, top :: rest =>
    if top ∈ nodes ∧ top ∉ marked then
      markFrom nodes next fuel (insert top marked) ((next top).reverse ++ rest)
    else markFrom nodes next fuel marked rest

/-- The nodes reached inside `nodes` from a stack whose top is its last item. -/
def mark : Finset α :=
  markFrom nodes next (stack.length + edges next nodes) ∅ stack.reverse

/-- The set holds its items' successors inside `nodes`. -/
def ClosedIn (set : Finset α) : Prop :=
  ∀ item ∈ set, ∀ successor ∈ next item, successor ∈ nodes → successor ∈ set

theorem subset_markFrom (fuel : Nat) (marked : Finset α) (stack : List α) :
    marked ⊆ markFrom nodes next fuel marked stack := by
  induction fuel generalizing marked stack with
  | zero => exact Finset.Subset.refl _
  | succ fuel ih =>
    cases stack with
    | nil => exact Finset.Subset.refl _
    | cons top rest =>
      unfold markFrom
      split
      · exact (Finset.subset_insert top marked).trans (ih _ _)
      · exact ih _ _

/-- With one round for each item and each edge, everything on the stack is marked, and so are its
successors. -/
theorem markFrom_closed {nodes : Finset α} {next : α → List α} {fuel : Nat} {marked : Finset α}
    {stack : List α} (enough : stack.length + edges next (nodes \ marked) ≤ fuel)
    (pending : ∀ item ∈ marked, ∀ successor ∈ next item,
      successor ∈ nodes → successor ∈ marked ∨ successor ∈ stack) :
    ClosedIn nodes next (markFrom nodes next fuel marked stack) ∧
      ∀ item ∈ stack, item ∈ nodes → item ∈ markFrom nodes next fuel marked stack := by
  induction fuel generalizing marked stack with
  | zero =>
    cases stack with
    | nil =>
      refine ⟨?_, nofun⟩
      intro item member successor follows inside
      exact (pending item member successor follows inside).resolve_right not_mem_nil
    | cons top rest => simp at enough
  | succ fuel ih =>
    cases stack with
    | nil =>
      refine ⟨?_, nofun⟩
      intro item member successor follows inside
      exact (pending item member successor follows inside).resolve_right not_mem_nil
    | cons top rest =>
      rw [length_cons] at enough
      unfold markFrom
      split
      · rename_i fresh
        have fewer := edges_sdiff_insert next fresh.1 fresh.2
        have enough' : ((next top).reverse ++ rest).length +
            edges next (nodes \ insert top marked) ≤ fuel := by
          rw [length_append, length_reverse]
          omega
        have later := ih enough' ?_
        · refine ⟨later.1, ?_⟩
          intro item member inside
          rcases mem_cons.mp member with here | below
          · subst here
            exact subset_markFrom _ _ _ _ _ (Finset.mem_insert_self _ _)
          · exact later.2 item (mem_append_right _ below) inside
        · intro item member successor follows inside
          rcases Finset.mem_insert.mp member with here | before
          · subst here
            exact .inr (mem_append_left _ (mem_reverse.mpr follows))
          · rcases pending item before successor follows inside with known | stacked
            · exact .inl (Finset.mem_insert_of_mem known)
            · rcases mem_cons.mp stacked with here | below
              · exact .inl (here ▸ Finset.mem_insert_self _ _)
              · exact .inr (mem_append_right _ below)
      · rename_i skipped
        have known : top ∈ nodes → top ∈ marked := fun inside =>
          not_not.mp fun fresh => skipped ⟨inside, fresh⟩
        have enough' : rest.length + edges next (nodes \ marked) ≤ fuel := by omega
        have later := ih enough' ?_
        · refine ⟨later.1, ?_⟩
          intro item member inside
          rcases mem_cons.mp member with here | below
          · subst here
            exact subset_markFrom _ _ _ _ _ (known inside)
          · exact later.2 item below inside
        · intro item member successor follows inside
          rcases pending item member successor follows inside with before | stacked
          · exact .inl before
          · rcases mem_cons.mp stacked with here | below
            · exact .inl (here ▸ known (here ▸ inside))
            · exact .inr below

theorem mark_closed :
    ClosedIn nodes next (mark nodes next stack) ∧
      ∀ item ∈ stack, item ∈ nodes → item ∈ mark nodes next stack := by
  have enough : stack.reverse.length + edges next (nodes \ ∅) ≤
      stack.length + edges next nodes := by
    rw [length_reverse, Finset.sdiff_empty]
  have closed := markFrom_closed enough fun item member =>
    (Finset.notMem_empty item member).elim
  exact ⟨closed.1, fun item member => closed.2 item (mem_reverse.mpr member)⟩

end

variable {found : List α} {item : α} {next : α → List α} {fuel index : Nat} {nodes : Finset α}

/-- Pushes the items not yet in the vector. -/
def pushFresh (found items : List α) : List α :=
  items.foldl (fun found item => if item ∈ found then found else found ++ [item]) found

/-- Reads the vector from `index` on, pushing the successors of each item. -/
def sweepFrom (next : α → List α) : Nat → Nat → List α → List α
  | 0, _, found => found
  | fuel + 1, index, found =>
    match found[index]? with
    | none => found
    | some item => sweepFrom next fuel (index + 1) (pushFresh found (next item))

/-- An item and everything after it; `nodes` are the items that may have successors. -/
def sweep (nodes : Finset α) (next : α → List α) (root : α) : List α :=
  sweepFrom next (1 + edges next nodes) 0 [root]

theorem mem_pushFresh {items : List α} :
    item ∈ pushFresh found items ↔ item ∈ found ∨ item ∈ items := by
  unfold pushFresh
  induction items generalizing found with
  | nil => simp
  | cons first rest ih =>
    rw [foldl_cons, ih]
    split
    · rename_i known
      constructor
      · rintro (before | later)
        · exact .inl before
        · exact .inr (.tail _ later)
      · rintro (before | later)
        · exact .inl before
        · rcases mem_cons.mp later with here | later
          · exact .inl (here ▸ known)
          · exact .inr later
    · simp [or_assoc]

/-- What is pushed comes after what was there. -/
theorem prefix_pushFresh (found items : List α) : found <+: pushFresh found items := by
  unfold pushFresh
  induction items generalizing found with
  | nil => exact prefix_refl _
  | cons first rest ih =>
    rw [foldl_cons]
    refine IsPrefix.trans ?_ (ih _)
    split
    · exact prefix_refl _
    · exact prefix_append _ _

theorem pushFresh_nodup (distinct : found.Nodup) (items : List α) :
    (pushFresh found items).Nodup := by
  unfold pushFresh
  induction items generalizing found with
  | nil => exact distinct
  | cons first rest ih =>
    rw [foldl_cons]
    refine ih ?_
    split
    · exact distinct
    · rename_i fresh
      exact nodup_append.mpr ⟨distinct, nodup_singleton _, by
        rintro item before _ here rfl
        exact fresh (mem_singleton.mp here ▸ before)⟩

theorem length_pushFresh_le (found items : List α) :
    (pushFresh found items).length ≤ found.length + items.length := by
  unfold pushFresh
  induction items generalizing found with
  | nil => exact Nat.le_refl _
  | cons first rest ih =>
    rw [foldl_cons]
    refine (ih _).trans ?_
    split
    · rw [length_cons]
      omega
    · rw [length_append, length_singleton, length_cons]
      omega

theorem prefix_sweepFrom (next : α → List α) (fuel index : Nat) (found : List α) :
    found <+: sweepFrom next fuel index found := by
  induction fuel generalizing index found with
  | zero => exact prefix_refl _
  | succ fuel ih =>
    unfold sweepFrom
    split
    · exact prefix_refl _
    · exact (prefix_pushFresh _ _).trans (ih _ _)

/-- Everything swept follows an item of the vector. -/
theorem mem_sweepFrom (member : item ∈ sweepFrom next fuel index found) :
    ∃ source ∈ found, Relation.ReflTransGen (fun first second => second ∈ next first)
      source item := by
  induction fuel generalizing index found with
  | zero => exact ⟨item, member, .refl⟩
  | succ fuel ih =>
    unfold sweepFrom at member
    split at member
    · exact ⟨item, member, .refl⟩
    · rename_i here at'
      obtain ⟨source, before, reached⟩ := ih member
      rcases mem_pushFresh.mp before with known | follows
      · exact ⟨source, known, reached⟩
      · exact ⟨here, mem_of_getElem? at', .head follows reached⟩

/-- With one round for each item and each edge, the vector is read to its end. -/
theorem sweepFrom_closed (outside : ∀ item ∉ nodes, next item = []) (distinct : found.Nodup)
    (enough : found.length - index + edges next (nodes \ (found.take index).toFinset) ≤ fuel)
    (done : ∀ item ∈ found.take index, ∀ successor ∈ next item, successor ∈ found) :
    ∀ item ∈ sweepFrom next fuel index found, ∀ successor ∈ next item,
      successor ∈ sweepFrom next fuel index found := by
  induction fuel generalizing index found with
  | zero =>
    intro item member
    refine done item ?_
    rwa [take_of_length_le (by omega)]
  | succ fuel ih =>
    unfold sweepFrom
    split
    · rename_i ended
      intro item member
      refine done item ?_
      rwa [take_of_length_le (List.getElem?_eq_none_iff.mp ended)]
    · rename_i here at'
      obtain ⟨inRange, value⟩ := List.getElem?_eq_some_iff.mp at'
      have taken : (pushFresh found (next here)).take (index + 1) = found.take index ++ [here] := by
        obtain ⟨pushed, extended⟩ := prefix_pushFresh found (next here)
        rw [← extended, take_append_of_le_length (by omega), take_add_one, at']
        rfl
      have fresh : here ∉ found.take index := by
        intro before
        have split := nodup_append.mp (take_append_drop index found ▸ distinct)
        refine split.2.2 here before here ?_ rfl
        exact mem_of_getElem? (by rw [getElem?_drop, Nat.add_zero]; exact at')
      refine ih (pushFresh_nodup distinct _) ?_ ?_
      · have shorter := length_pushFresh_le found (next here)
        have fewer : edges next (nodes \ (found.take index ++ [here]).toFinset) +
            (next here).length ≤ edges next (nodes \ (found.take index).toFinset) := by
          by_cases inside : here ∈ nodes
          · have less := edges_sdiff_insert next inside (mt mem_toFinset.mp fresh)
            rw [toFinset_append, Finset.union_comm]
            exact less.le
          · rw [outside here inside, length_nil, Nat.add_zero]
            refine Finset.sum_le_sum_of_subset (Finset.sdiff_subset_sdiff le_rfl ?_)
            rw [toFinset_append]
            exact Finset.subset_union_left
        rw [taken]
        omega
      · rw [taken]
        intro item member successor follows
        rcases mem_append.mp member with before | last
        · exact mem_pushFresh.mpr (.inl (done item before successor follows))
        · rw [mem_singleton.mp last] at follows
          exact mem_pushFresh.mpr (.inr follows)

theorem root_mem_sweep (nodes : Finset α) (next : α → List α) (root : α) :
    root ∈ sweep nodes next root :=
  (prefix_sweepFrom next _ 0 [root]).subset (mem_singleton_self root)

theorem reached_of_mem_sweep {root : α} (member : item ∈ sweep nodes next root) :
    Relation.ReflTransGen (fun first second => second ∈ next first) root item := by
  obtain ⟨source, only, reached⟩ := mem_sweepFrom member
  rwa [mem_singleton.mp only] at reached

theorem sweep_closed (outside : ∀ item ∉ nodes, next item = []) (root : α) :
    ∀ item ∈ sweep nodes next root, ∀ successor ∈ next item, successor ∈ sweep nodes next root :=
  sweepFrom_closed outside (nodup_singleton root) (by simp) (by simp)

end Q21Formal.Library.Reach
