import NodalMerge.Crdt.LiveText

namespace NodalMerge

open InsertAfter List StateGraph

/-- The same item, or its tombstone. -/
def Item.Persists (old new : Item) : Prop := new = old ∨ new = { old with deleted := true }

instance : Std.Refl Item.Persists := ⟨fun _ => .inl rfl⟩

instance : IsTrans Item Item.Persists where
  trans := by rintro _ _ _ (rfl | rfl) (rfl | rfl) <;> simp [Item.Persists]

namespace TextProjection

/-- The items stay in their order, with new ones among them. -/
abbrev Keeps (before after : TextProjection) : Prop :=
  SublistForall₂ Item.Persists before.items after.items

theorem Keeps.trans {one other last : TextProjection} (first : one.Keeps other)
    (second : other.Keeps last) : one.Keeps last := Trans.trans first second

theorem keeps_foldl (view : State → TextProjection) {apply : State → Step → State}
    (keeps : ∀ state step, (view state).Keeps (view (apply state step)))
    (state : State) (steps : List Step) : (view state).Keeps (view (steps.foldl apply state)) := by
  induction steps generalizing state with
  | nil => exact refl _
  | cons step rest ih => exact (keeps state step).trans (ih _)

variable {projection : TextProjection}

theorem keeps_integrate : projection.Keeps (projection.integrate opId parent ch) :=
  (sublist_insertAfter _ parent projection.items).sublistForall₂

theorem keeps_drain : projection.Keeps (projection.drain stack) := by
  fun_induction drain projection stack with
  | case1 => exact refl _
  | case2 projection parent stack missing ih => exact ih
  | case3 projection parent stack children found released ih =>
    refine .trans (keeps_foldl id (fun current child => ?_) released children) ih
    exact (keeps_integrate : Keeps { current with orphanIds := _ } _)

theorem keeps_applyInsert : projection.Keeps (projection.applyInsert opId anchor ch) := by
  have enters (parent : Option OpId) :
      projection.Keeps ((projection.integrate opId parent ch).drainOrphansOf opId) := by
    apply keeps_integrate.trans
    unfold drainOrphansOf
    split
    · exact refl _
    · exact keeps_drain
  unfold applyInsert
  repeat' split
  all_goals first | exact refl _ | exact enters _

theorem keeps_deleteKnown : projection.Keeps (projection.deleteKnown opId) := by
  unfold deleteKnown
  split
  · refine sublistForall₂_iff.mpr ⟨_, ?_, .refl _⟩
    refine forall₂_map_right_iff.mpr (forall₂_same.mpr fun item _ => ?_)
    split
    · exact .inr rfl
    · exact .inl rfl
  · exact refl _

theorem keeps_applyOp : projection.Keeps (projection.applyOp tx key op) := by
  have insertChars {offset anchor} (chars : List Char) :
      projection.Keeps (projection.insertChars tx.opId offset anchor chars) := by
    induction chars generalizing projection offset anchor with
    | nil => exact refl _
    | cons ch rest ih => exact keeps_applyInsert.trans ih
  have deleteAt (start count : Nat) : projection.Keeps (projection.deleteAt start count) := by
    clear insertChars
    fun_induction TextProjection.deleteAt projection start count with
    | case1 => exact refl _
    | case2 => exact refl _
    | case3 projection count id found ih => exact keeps_deleteKnown.trans ih
  unfold applyOp applyDelete
  repeat' split
  all_goals first
    | exact refl _
    | exact keeps_applyInsert
    | exact keeps_deleteKnown
    | exact insertChars _
    | exact deleteAt ..

end TextProjection

open TextProjection

/-- A new graph after the batches. Nothing changes its projection mode or its residency policy, so
no parity check rebuilds a projection and none is evicted. -/
def received (crypto : Crypto) (batches : List (List SyncNode × Option Nat)) : StateGraph :=
  batches.foldl (fun graph batch => (applyRemoteBatchChecked crypto graph batch.1 batch.2).1) empty

/-- Whatever batches follow, no character of the live text is ever moved, dropped, altered or
revived. -/
theorem live_text_never_reordered (crypto : Crypto) (key : String)
    (front back : List (List SyncNode × Option Nat)) :
    ((received crypto front).live key).Keeps ((received crypto (front ++ back)).live key) := by
  rw [received, received, foldl_append]
  refine keeps_foldl (fun graph : StateGraph => graph.live key) (fun graph batch => ?_) _ back
  rw [applyRemoteBatchChecked_live]
  refine keeps_foldl id (fun current node => ?_) _ _
  exact keeps_foldl id (fun _ _ => keeps_applyOp) current _

end NodalMerge
