import NodalMerge.Crdt.LiveText

namespace NodalMerge

open InsertAfter List Option

namespace TextProjection

variable {projection : TextProjection}

/-- The items behind a predecessor. -/
def behind (projection : TextProjection) : Option OpId → List Item
  | none => projection.items
  | some id => (projection.items.dropWhile fun item => decide (item.id ≠ id)).tail

/-- Visible text of the run of larger ids right behind an offset: a new
character with this id is integrated behind it. -/
def overtaken (projection : TextProjection) (offset : Nat) (id : OpId) : List Char :=
  ((((projection.behind (projection.resolveAnchorAfterVisible (.offset offset))).takeWhile
    fun item => decide (id < item.id)).filter fun item => !item.deleted).map Item.ch)

theorem resolveAnchorIndex_offset (fits : offset ≤ projection.visibleCharLen) :
    projection.resolveAnchorIndex (.offset offset) = offset := Nat.min_eq_left fits

/-- The document falls apart at an offset into what is up to the predecessor
and what is behind it. -/
theorem Plain.split_offset (plain : projection.Plain) (fits : offset ≤ projection.visibleCharLen) :
    ∃ front, projection.items = front ++
        projection.behind (projection.resolveAnchorAfterVisible (.offset offset)) ∧
      EndsAt Item.id (projection.resolveAnchorAfterVisible (.offset offset)) front ∧
      (front.filter fun item => !item.deleted) = projection.visible.take offset ∧
      ((projection.behind (projection.resolveAnchorAfterVisible (.offset offset))).filter
        fun item => !item.deleted) = projection.visible.drop offset := by
  have index := resolveAnchorIndex_offset fits
  cases offset with
  | zero =>
    have start : projection.resolveAnchorAfterVisible (.offset 0) = none := by
      rw [resolveAnchorAfterVisible, index, if_pos rfl]
    exact ⟨[], rfl, rfl, rfl, rfl⟩
  | succ offset =>
    have bound : offset < projection.visible.length := fits
    have found : projection.visible[offset]? = some projection.visible[offset] :=
      List.getElem?_eq_getElem bound
    have predecessor : projection.resolveAnchorAfterVisible (.offset (offset + 1)) =
        some projection.visible[offset].id := by
      rw [resolveAnchorAfterVisible, index, if_neg (Nat.succ_ne_zero _), idAtVisibleOffset,
        Nat.add_sub_cancel, found]
      rfl
    obtain ⟨before, back, items, shown, shownBefore, shownBack⟩ := split_visible found
    rw [predecessor]
    have rest : projection.behind (some projection.visible[offset].id) = back := by
      rw [behind, (plain.takeWhile_before items).2]
      rfl
    rw [rest]
    refine ⟨before ++ [projection.visible[offset]], by simpa using items,
      ⟨before, _, rfl, rfl, plain.not_mem_before items⟩, ?_, shownBack⟩
    rw [filter_append, shownBefore, take_add_one, found]
    simp [shown]

/-- An insert at an offset shows up behind the characters it is overtaken by,
cut off where the ids run out. -/
theorem Plain.insert_at_offset (plain : projection.Plain)
    (fits : offset ≤ projection.visibleCharLen) (base : OpId) (room : base.lamport ≤ u64Max)
    (fresh : ∀ index, base.lamport + index ≤ u64Max → rangeCharId base index ∉ projection.ids)
    (chars : List Char) :
    ∃ rest, (projection.visible.map Item.ch).drop offset =
        projection.overtaken offset base ++ rest ∧
      ((projection.insertChars base 0 (projection.resolveAnchorAfterVisible (.offset offset))
        chars).visible.map Item.ch) =
        (projection.visible.map Item.ch).take offset ++
          (projection.overtaken offset base ++
            (chars.take (u64Max + 1 - base.lamport) ++ rest)) := by
  obtain ⟨front, items, ends, shownFront, shownBack⟩ := plain.split_offset fits
  have after := plain.insertChars_items items ends room fresh chars
  generalize back_eq : projection.behind
    (projection.resolveAnchorAfterVisible (.offset offset)) = back at *
  have overtaken_eq : projection.overtaken offset base =
      ((back.takeWhile fun item => decide (base < item.id)).filter
        fun item => !item.deleted).map Item.ch := by
    rw [overtaken, back_eq]
  refine ⟨((back.dropWhile fun item => decide (base < item.id)).filter
    fun item => !item.deleted).map Item.ch, ?_, ?_⟩
  · rw [← map_drop, ← shownBack, overtaken_eq, ← map_append, ← filter_append,
      takeWhile_append_dropWhile]
  · rw [visible, after, overtaken_eq, ← map_take, ← shownFront]
    simp only [filter_append, map_append, rangeItems_chars, Nat.add_zero,
      append_assoc]

end TextProjection

namespace StateGraph

open TextProjection

variable {crypto : Crypto} {graph : StateGraph} {signingKey : crypto.SigningKey} {key : String}

/-- Making an offset stable does not move it. -/
theorem resolve_canonicalAnchor (mode : graph.textProjectionMode = .enabled)
    (plain : (graph.live key).Plain) (fits : offset ≤ (graph.live key).visibleCharLen) :
    (graph.live key).resolveAnchorIndex (graph.canonicalAnchor key (.offset offset)) = offset := by
  cases found : graph.textProjections.lookup key with
  | none =>
    have empty : graph.live key = .empty := by rw [live, found, getD_none]
    rw [empty] at fits
    obtain rfl : offset = 0 := Nat.le_zero.mp fits
    simp [canonicalAnchor, canonicalizeOffsetAnchorFast, canonicalizeRangeAnchor, found,
      resolveAnchorIndex]
  | some projection =>
    have here : graph.live key = projection := by rw [live, found, getD_some]
    rw [here] at fits plain ⊢
    have fast : graph.canonicalizeOffsetAnchorFast key offset =
        if offset = 0 then some .atStart
        else if projection.visibleCharLen ≤ offset then some .atEnd
        else (projection.idAtVisibleOffset (offset - 1)).map .after := by
      rw [canonicalizeOffsetAnchorFast, mode, if_neg (by decide), found]
      change (if min offset projection.visibleCharLen = 0 then _ else _) = _
      rw [Nat.min_eq_left fits]
    rw [canonicalAnchor, fast]
    by_cases zero : offset = 0
    · rw [if_pos zero, getD_some]
      exact zero.symm
    · by_cases last : projection.visibleCharLen ≤ offset
      · rw [if_neg zero, if_pos last, getD_some]
        exact le_antisymm last fits
      · have bound : offset - 1 < projection.visible.length := by
          rw [visibleCharLen] at last
          omega
        have item := List.getElem?_eq_getElem bound
        have position := plain.visibleOffsetOfId_eq item
        rw [if_neg zero, if_neg last, idAtVisibleOffset, item, map_some, map_some,
          getD_some, resolveAnchorIndex, position]
        exact Nat.sub_add_cancel (Nat.one_le_iff_ne_zero.mpr zero)

/-- Local range edits under one key, and range edits of other authors. -/
def Call.RangeEditing (signingKey : crypto.SigningKey) (graph : StateGraph) :
    Call crypto graph → Prop
  | .applyLocal writer _ ops _ => writer = signingKey ∧ ∃ op, ops = [graph.lowerRangeOp op]
  | .applyRemote node _ =>
    node.RangeOnly ∧ node.transaction.author ≠ crypto.verifyingKey signingKey
  | .applyRemoteBatch nodes _ => ∀ node ∈ nodes,
    node.RangeOnly ∧ node.transaction.author ≠ crypto.verifyingKey signingKey
  | _ => False

/-- The projections are plain, and the author's own ids are not above the clock. -/
def Edited (author : PublicKey) (graph : StateGraph) : Prop :=
  ∀ key, (graph.live key).Within fun id => id.author = author → id.lamport ≤ graph.lamport

theorem Edited.forward {after : StateGraph} (edited : graph.Edited author)
    (clock : graph.lamport ≤ after.lamport) (key : String) :
    (graph.live key).Within fun id => id.author = author → id.lamport ≤ after.lamport :=
  (edited key).mono fun _ own same => (own same).trans clock

variable {parents : Enumeration graph.leaves}

theorem rangeOnly_localNode :
    (localNode crypto graph signingKey wallMs [graph.lowerRangeOp op] parents).RangeOnly := by
  intro other member
  rw [localNode_transaction] at member
  rw [mem_singleton.mp member]
  cases op <;> trivial

/-- A local write reserves every id it mints. -/
theorem minted_le_clock {id : OpId}
    (minted : id ∈ (localNode crypto graph signingKey wallMs ops parents).mintedIds key) :
    id.lamport ≤ (graph.reserve ops).lamport := by
  obtain ⟨index, below, rfl⟩ := SyncNode.mem_mintedIds minted
  rw [localNode_transaction] at below ⊢
  exact min_le_min_right _ (Nat.add_le_add_left below _)

theorem Edited.call {after : StateGraph} {call : Call crypto graph}
    (edited : graph.Edited (crypto.verifyingKey signingKey)) (dag : graph.core.Dag crypto)
    (allowed : call.RangeEditing signingKey) (ran : call.run = some after) :
    after.Edited (crypto.verifyingKey signingKey) := by
  have clock : graph.lamport ≤ after.lamport := (Call.run_steps dag ran).lamport_le
  have before := edited.forward clock
  cases call with
  | applyLocal writer wallMs ops parents =>
    obtain ⟨rfl, op, rfl⟩ := allowed
    obtain ⟨outcome, wrote, rfl⟩ := map_eq_some_iff.mp ran
    obtain ⟨_, ⟨_, rfl⟩ | ⟨_, rfl⟩⟩ := applyLocal_cases wrote
    · exact before
    · intro key
      change Within _ (StateGraph.live (updateTextProjectionFromNode _ _) key)
      rw [live_updateFromNode]
      refine (before key).iterate rangeOnly_localNode ?_ _
      exact fun id minted _ => (minted_le_clock minted).trans (Nat.le_max_left _ _)
  | applyRemote node nowMs =>
    cases ran
    rcases applyRemoteChecked_cases crypto graph node nowMs with ⟨_, _, same⟩ | ⟨_, _, _, same⟩
    · rw [same] at before ⊢
      intro key
      change Within _ (StateGraph.live (updateTextProjectionFromNode _ _) key)
      rw [live_updateFromNode]
      refine (before key).iterate allowed.1 ?_ _
      intro id minted own
      obtain ⟨index, _, rfl⟩ := SyncNode.mem_mintedIds minted
      exact (allowed.2 own).elim
    · rw [same] at before ⊢
      exact before
  | applyRemoteBatch nodes nowMs =>
    cases ran
    intro key
    have edits : ∀ node ∈ batchAccepted crypto graph nodes nowMs,
        node.RangeOnly ∧ node.transaction.author ≠ crypto.verifyingKey signingKey :=
      fun node member => allowed node (mem_batchAccepted member).1
    rw [applyRemoteBatchChecked_live]
    refine (before key).foldl (fun node member => (edits node member).1) ?_
    intro node member id minted own
    obtain ⟨index, _, rfl⟩ := SyncNode.mem_mintedIds minted
    exact ((edits node member).2 own).elim
  | setPolicy policy => exact allowed.elim
  | setLocalSigning enabled => exact allowed.elim

section
variable (reached : Reachable crypto (Call.RangeEditing signingKey) graph)
include reached

theorem Reachable.edited : graph.Edited (crypto.verifyingKey signingKey) := by
  induction reached with
  | start => exact fun _ => .empty
  | call reached allowed ran ih => exact ih.call reached.dag allowed ran

theorem Reachable.editedSettings : graph.textProjectionMode = .enabled := by
  refine (Reachable.settings (reached.mono fun graph call allowed => ?_)).2.2
  cases call <;> trivial

/-- The text of a key as the graph shows it. -/
theorem Reachable.resolveText_live (key : String) :
    (graph.resolveText key).toList = (graph.live key).visible.map Item.ch := by
  rw [resolveText, reached.resident.textProjection_eq reached.editedSettings, resolveString,
    String.toList_ofList]

end

theorem live_commitLocal_insert :
    (graph.commitLocal [.text (.insertRange key anchor text)] (localNode crypto graph signingKey
      wallMs [.text (.insertRange key anchor text)] parents)).live key =
      (graph.live key).insertChars ⟨graph.lamport + 1, crypto.verifyingKey signingKey⟩ 0
        ((graph.live key).resolveAnchorAfterVisible anchor) text.toList := by
  have single : (localNode crypto graph signingKey wallMs [.text (.insertRange key anchor text)]
      parents).transaction.ops = [.text (.insertRange key anchor text)] := by
    rw [localNode_transaction]
    rfl
  refine (live_updateFromNode_single single _ key).trans ?_
  rw [applyNode, single, localNode_transaction]
  exact if_pos rfl

theorem append_take_eq_iff {overtaken : List Char} :
    overtaken ++ inserted.take room = inserted ++ overtaken ↔
      inserted.length ≤ room ∧ overtaken ++ inserted = inserted ++ overtaken := by
  constructor
  · intro same
    have fits : inserted.length ≤ room := by
      have lengths := congrArg List.length same
      simp only [length_append, length_take] at lengths
      omega
    rw [take_of_length_le fits] at same
    exact ⟨fits, same⟩
  · rintro ⟨fits, same⟩
    rw [take_of_length_le fits]
    exact same

section

/-- The outcomes of a local range edit that does not panic. -/
theorem applyLocalTextRangeOp_cases
    (ran : applyLocalTextRangeOp crypto graph signingKey wallMs op parents = some outcome) :
    graph.lamport + 1 ≤ u64Max ∧
      ((∃ error, outcome = (graph.reserve [graph.lowerRangeOp op], .error error)) ∨
        (graph.nodes.contains
            (localNode crypto graph signingKey wallMs [graph.lowerRangeOp op] parents).id = false ∧
          outcome = (graph.commitLocal [graph.lowerRangeOp op]
              (localNode crypto graph signingKey wallMs [graph.lowerRangeOp op] parents),
            .ok [(localNode crypto graph signingKey wallMs
              [graph.lowerRangeOp op] parents).id]))) := by
  obtain ⟨written, wrote, rfl⟩ := map_eq_some_iff.mp ran
  obtain ⟨room, ⟨_, rfl⟩ | ⟨fresh, rfl⟩⟩ := applyLocal_cases wrote
  · exact ⟨room, .inl ⟨_, rfl⟩⟩
  · exact ⟨room, .inr ⟨fresh, rfl⟩⟩

theorem Reachable.rangeEdit (reached : Reachable crypto Allowed graph)
    (allowed : Allowed graph (.applyLocal signingKey wallMs [graph.lowerRangeOp op] parents))
    (ran : applyLocalTextRangeOp crypto graph signingKey wallMs op parents = some outcome) :
    Reachable crypto Allowed outcome.1 := by
  obtain ⟨written, wrote, rfl⟩ := map_eq_some_iff.mp ran
  refine .call reached allowed ?_
  rw [Call.run, wrote]
  rfl

theorem applyLocalTextRangeOp_commit (room : graph.lamport + 1 ≤ u64Max)
    (fresh : graph.nodes.contains
      (localNode crypto graph signingKey wallMs [graph.lowerRangeOp op] parents).id = false) :
    applyLocalTextRangeOp crypto graph signingKey wallMs op parents =
      some (graph.commitLocal [graph.lowerRangeOp op]
          (localNode crypto graph signingKey wallMs [graph.lowerRangeOp op] parents),
        .ok [(localNode crypto graph signingKey wallMs [graph.lowerRangeOp op] parents).id]) := by
  rw [applyLocalTextRangeOp, applyLocal_commit room fresh]
  rfl

/-- What the graph shows after a local insert at an offset. -/
theorem Reachable.insert_at_offset
    (reached : Reachable crypto (Call.RangeEditing signingKey) graph)
    (fits : offset ≤ (graph.live key).visibleCharLen) (room : graph.lamport + 1 ≤ u64Max)
    (collisionFree : crypto.CollisionFree (insert (localTransaction crypto graph signingKey wallMs
      [graph.lowerRangeOp (.insert key (.offset offset) text)] parents) graph.transactions)) :
    ∃ after ids rest, applyLocalTextRangeOp crypto graph signingKey wallMs
        (.insert key (.offset offset) text) parents = some (after, .ok ids) ∧
      (graph.resolveText key).toList.drop offset = (graph.live key).overtaken offset
        ⟨graph.lamport + 1, crypto.verifyingKey signingKey⟩ ++ rest ∧
      (after.resolveText key).toList = (graph.resolveText key).toList.take offset ++
        ((graph.live key).overtaken offset ⟨graph.lamport + 1, crypto.verifyingKey signingKey⟩ ++
          (text.toList.take (u64Max - graph.lamport) ++ rest)) := by
  have within := reached.edited key
  have fresh := localNode_fresh reached.dag collisionFree
  have reachedAfter : Reachable crypto (Call.RangeEditing signingKey) _ :=
    reached.commit ⟨rfl, _, rfl⟩ room fresh
  have unused : ∀ index, graph.lamport + 1 + index ≤ u64Max →
      rangeCharId ⟨graph.lamport + 1, crypto.verifyingKey signingKey⟩ index ∉
        (graph.live key).ids := by
    intro index inRange member
    have older := within.good _ member rfl
    rw [rangeCharId_room inRange] at older
    change graph.lamport + 1 + index ≤ graph.lamport at older
    omega
  have predecessor : (graph.live key).resolveAnchorAfterVisible
      (graph.canonicalAnchor key (.offset offset)) =
        (graph.live key).resolveAnchorAfterVisible (.offset offset) := by
    rw [resolveAnchorAfterVisible, resolveAnchorAfterVisible,
      resolve_canonicalAnchor reached.editedSettings within.plain fits,
      resolveAnchorIndex_offset fits]
  obtain ⟨rest, shownBack, shownAfter⟩ :=
    within.plain.insert_at_offset fits ⟨_, _⟩ room unused text.toList
  refine ⟨_, _, rest, applyLocalTextRangeOp_commit room fresh, ?_, ?_⟩
  · rw [reached.resolveText_live]
    exact shownBack
  · rw [reachedAfter.resolveText_live, reached.resolveText_live]
    change ((StateGraph.live (graph.commitLocal [.text (.insertRange key _ text)] (localNode crypto
      graph signingKey wallMs [.text (.insertRange key _ text)] parents)) key).visible.map
        Item.ch) = _
    rw [live_commitLocal_insert, predecessor, shownAfter, Nat.add_sub_add_right]

end

/-- A local insert at an offset shows up there if and only if its ids do not
run out and the text of the larger ids behind the offset can trade places with
the inserted text. -/
theorem local_insert_intention_iff (crypto : Crypto) (signingKey : crypto.SigningKey)
    (graph : StateGraph) (reached : Reachable crypto (Call.RangeEditing signingKey) graph)
    (key : String) (offset : Nat) (fits : offset ≤ (graph.resolveText key).toList.length)
    (text : String) (nonempty : text ≠ "") (wallMs : Nat) (parents : Enumeration graph.leaves)
    (collisionFree : crypto.CollisionFree (insert (localTransaction crypto graph signingKey wallMs
      [graph.lowerRangeOp (.insert key (.offset offset) text)] parents) graph.transactions)) :
    (∃ after ids, applyLocalTextRangeOp crypto graph signingKey wallMs
        (.insert key (.offset offset) text) parents = some (after, .ok ids) ∧
      (after.resolveText key).toList = (graph.resolveText key).toList.take offset ++ text.toList ++
        (graph.resolveText key).toList.drop offset) ↔
    graph.lamport + text.toList.length ≤ u64Max ∧
      (graph.textProjection key).overtaken offset
          ⟨graph.lamport + 1, crypto.verifyingKey signingKey⟩ ++ text.toList =
        text.toList ++ (graph.textProjection key).overtaken offset
          ⟨graph.lamport + 1, crypto.verifyingKey signingKey⟩ := by
  have fitsLive : offset ≤ (graph.live key).visibleCharLen := by
    rw [reached.resolveText_live, length_map] at fits
    exact fits
  have length : 1 ≤ text.toList.length := by
    rw [Nat.one_le_iff_ne_zero, ne_eq, length_eq_zero_iff, String.toList_eq_nil_iff]
    exact nonempty
  rw [reached.resident.textProjection_eq reached.editedSettings]
  have insertion (room : graph.lamport + 1 ≤ u64Max) :=
    reached.insert_at_offset fitsLive room collisionFree
  generalize (graph.live key).overtaken offset
    ⟨graph.lamport + 1, crypto.verifyingKey signingKey⟩ = overtaken at insertion ⊢
  constructor
  · rintro ⟨after, ids, ran, kept⟩
    have room := (applyLocalTextRangeOp_cases ran).1
    obtain ⟨other, otherIds, rest, same, back, shown⟩ := insertion room
    obtain ⟨rfl, _⟩ := Prod.mk.inj (Option.some.inj (ran.symm.trans same))
    rw [kept, back, append_assoc, append_cancel_left_eq, ← append_assoc,
      ← append_assoc, append_cancel_right_eq] at shown
    obtain ⟨enough, trade⟩ := append_take_eq_iff.mp shown.symm
    exact ⟨by omega, trade⟩
  · rintro ⟨enough, trade⟩
    obtain ⟨after, ids, rest, ran, back, shown⟩ := insertion (by omega)
    refine ⟨after, ids, ran, ?_⟩
    have placed := append_take_eq_iff.mpr ⟨show text.toList.length ≤ u64Max - graph.lamport by omega,
      trade⟩
    rw [shown, back, append_assoc, ← append_assoc overtaken, placed, append_assoc]

def draftOp : TextRangeOp := .insert "doc" (.offset 0) "ac"

def draftNode : SyncNode :=
  localNode Crypto.sample .empty (Crypto.sampleKey 1) 0 [empty.lowerRangeOp draftOp] noLeaves

def draft : StateGraph := empty.commitLocal [empty.lowerRangeOp draftOp] draftNode

theorem draft_reachable :
    Reachable Crypto.sample (Call.RangeEditing (Crypto.sampleKey 1)) draft :=
  .commit .start ⟨rfl, draftOp, rfl⟩ (by decide) (by decide)

theorem draft_collisionFree
    (apart : Crypto.sample.txHash tx ≠ Crypto.sample.txHash draftNode.transaction) :
    Crypto.sample.CollisionFree (insert tx draft.transactions) := by
  rintro first (rfl | ⟨node, member, rfl⟩) second (rfl | ⟨other, otherMember, rfl⟩) same
  · rfl
  · cases mem_singleton.mp otherMember
    exact (apart same).elim
  · cases mem_singleton.mp member
    exact (apart same.symm).elim
  · cases mem_singleton.mp member
    cases mem_singleton.mp otherMember
    rfl

theorem draft_insert_lands :
    ∃ after ids, applyLocalTextRangeOp Crypto.sample draft (Crypto.sampleKey 1) 0
        (.insert "doc" (.offset 1) "b") ⟨[draftNode.id], by simp, by decide⟩ =
          some (after, .ok ids) ∧
      (after.resolveText "doc").toList = (draft.resolveText "doc").toList.take 1 ++ "b".toList ++
        (draft.resolveText "doc").toList.drop 1 :=
  (local_insert_intention_iff Crypto.sample (Crypto.sampleKey 1) draft draft_reachable "doc" 1
    (by decide) "b" (by decide) 0 ⟨[draftNode.id], by simp, by decide⟩
    (draft_collisionFree (by decide))).mpr ⟨by decide, by decide⟩

def remotePaste : SyncNode :=
  localNode Crypto.sample .empty (Crypto.sampleKey 2) 0
    [.text (.insertRange "doc" .atStart "bc")] noLeaves

def pasteReceiver : StateGraph := empty.accept remotePaste

/-- The local insert between the two characters shows up behind both. -/
theorem remote_tail_overtakes_insert :
    Reachable Crypto.sample (Call.RangeEditing (Crypto.sampleKey 1)) pasteReceiver ∧
      pasteReceiver.resolveText "doc" = "bc" ∧
      (applyLocalTextRangeOp Crypto.sample pasteReceiver (Crypto.sampleKey 1) 0
        (.insert "doc" (.offset 1) "x") ⟨[remotePaste.id], by simp, by decide⟩).map
          (fun outcome => (outcome.1.resolveText "doc", outcome.2.toBool)) =
        some ("bcx", true) := by
  have screened : Screened Crypto.sample .empty none remotePaste := ⟨by decide, by decide⟩
  refine ⟨.receive .start ⟨?_, by decide⟩ screened
    ⟨by decide, .inr fun _ _ => rfl, by decide⟩, by decide, by decide⟩
  intro op member
  rw [mem_singleton.mp member]
  trivial

end StateGraph

end NodalMerge
