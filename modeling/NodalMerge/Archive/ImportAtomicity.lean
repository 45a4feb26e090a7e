import NodalMerge.Archive.Validation
import NodalMerge.Server.ImportOutcome

namespace NodalMerge

open ArchiveServer Function List Option StateGraph
open ArchiveRoom (putBlob)

/-- The graph, the persisted nodes, the blobs in memory and the blobs at rest are
the same. -/
structure ArchiveServer.Unchanged (before after : ArchiveServer) : Prop where
  graph : after.room.graph = before.room.graph
  table : after.host.table = before.host.table
  blobs : after.room.blobs = before.room.blobs
  atRest : after.host.backend.atRest = before.host.backend.atRest

section
variable {env : ArchiveEnv}

/-- A load writes to the cache of manifests only. -/
theorem loadSourceRoom_host (env : ArchiveEnv) (host : ArchiveHost) (roomId archiveRef : String) :
    (loadSourceRoom env host roomId archiveRef).1.table = host.table ∧
      (loadSourceRoom env host roomId archiveRef).1.backend = host.backend := by
  have cached (path : String) (revision : Option ManifestCacheRevision)
      (metadata : ExternalManifestMetadata) :
      (host.cacheMetadata path revision metadata).table = host.table ∧
        (host.cacheMetadata path revision metadata).backend = host.backend := by
    cases revision <;> exact ⟨rfl, rfl⟩
  have external (path : String) :
      (loadExternalManifestSourceRoom env host path roomId archiveRef).1.table = host.table ∧
        (loadExternalManifestSourceRoom env host path roomId archiveRef).1.backend =
          host.backend := by
    rw [loadExternalManifestSourceRoom]
    split
    · exact ⟨rfl, rfl⟩
    · split
      · exact ⟨rfl, rfl⟩
      · exact ⟨rfl, rfl⟩
      · split
        · exact ⟨rfl, rfl⟩
        · exact cached _ _ _
  rw [loadSourceRoom]
  split
  · exact ⟨rfl, rfl⟩
  · exact ⟨rfl, rfl⟩
  · exact external _
  · split
    · exact ⟨rfl, rfl⟩
    · exact external _

theorem loadImport_host (env : ArchiveEnv) (server : ArchiveServer)
    (archiveRef importMode : Option String) (order : HashOrder) :
    (loadImport env server archiveRef importMode order).1.table = server.host.table ∧
      (loadImport env server archiveRef importMode order).1.backend = server.host.backend := by
  rw [loadImport]
  split
  · exact ⟨rfl, rfl⟩
  · split
    · exact ⟨rfl, rfl⟩
    · exact loadSourceRoom_host ..

/-- What is resolved is at rest. -/
theorem atRest_of_resolveBlobs (resolved : resolveBlobs env.crypto backend hashes = .ok blobs) :
    ∀ blob ∈ blobs, backend.atRest blob.1 = some blob.2 := by
  induction hashes generalizing blobs with
  | nil =>
    cases resolved
    exact nofun
  | cons hash rest ih =>
    rw [resolveBlobs] at resolved
    split at resolved
    · rename_i bytes hydrated
      cases others : resolveBlobs env.crypto backend rest with
      | error reason =>
        rw [others] at resolved
        cases resolved
      | ok found =>
        rw [others] at resolved
        cases resolved
        intro blob member
        rcases mem_cons.mp member with rfl | inRest
        · exact atRest_of_hydrateBlob hydrated
        · exact ih others blob inRest
    · exact ih resolved
    · cases resolved
    · cases resolved

/-- The blobs of a loaded archive are at rest. -/
theorem atRest_of_loadImport {server : ArchiveServer} {archiveRef importMode : Option String}
    {order : HashOrder} {request : LoadedImport}
    (loaded : (loadImport env server archiveRef importMode order).2 = .ok request) :
    ∀ blob ∈ request.loaded.blobs, server.host.backend.atRest blob.1 = some blob.2 := by
  rw [loadImport] at loaded
  split at loaded
  · cases loaded
  · split at loaded
    · cases loaded
    · obtain ⟨archive, read, checked⟩ := bind_eq_ok.mp loaded
      obtain ⟨metadata, -, read⟩ := bind_eq_ok.mp read
      obtain ⟨-, blobs, resolved, rfl⟩ := loadPayload_ok_iff.mp read
      have same : request.loaded.blobs = blobs := by
        cases policy : checkPolicyTimeline env server.room _ metadata with
        | error rejected =>
          rw [policy] at checked
          cases checked
        | ok _ =>
          rw [policy] at checked
          rw [← Except.ok.inj checked]
      rw [same]
      split at resolved
      · exact atRest_of_resolveBlobs resolved
      · rw [resolved]
        exact nofun

end

/-- The blob can be written. -/
def BlobBackend.writes (backend : BlobBackend) (blob : Hash × List U8) : Bool :=
  (backend.writeFault blob.1).isNone

section
variable {server : ArchiveServer}

/-- What is written leaves the faults of the attempt alone. -/
theorem writes_of_persistBlob {after : BlobBackend} {hash : Hash}
    (persisted : persistBlob backend hash bytes = .ok after) :
    backend.writes (hash, bytes) = true ∧ after.writes = backend.writes := by
  rw [persistBlob] at persisted
  split at persisted
  · cases persisted
  · rename_i free
    refine ⟨Option.isNone_iff_eq_none.mpr free, ?_⟩
    split at persisted
    · rw [← Except.ok.inj persisted]
    · rw [← Except.ok.inj persisted]
      rfl

theorem importBlobs_ok_iff :
    (server.importBlobs env blobs).2 = .ok () ↔
      ∀ blob ∈ blobs, server.host.backend.writes blob = true := by
  induction blobs generalizing server with
  | nil => exact ⟨fun _ _ absent => (not_mem_nil absent).elim, fun _ => rfl⟩
  | cons blob rest ih =>
    obtain ⟨hash, bytes⟩ := blob
    rw [ArchiveServer.importBlobs, forall_mem_cons]
    cases persisted : persistBlob server.host.backend hash bytes with
    | error fault =>
      refine ⟨nofun, fun all => ?_⟩
      rw [persistBlob, Option.isNone_iff_eq_none.mp all.1] at persisted
      dsimp only at persisted
      split at persisted <;> cases persisted
    | ok backend =>
      obtain ⟨head, same⟩ := writes_of_persistBlob persisted
      exact ih.trans (by rw [and_iff_right head, ← same])

end

namespace ArchiveServer

section
variable {server : ArchiveServer}

/-- The loop over blobs that are at rest puts into memory those before the first
that cannot be written. -/
theorem importBlobs_eq (stored : ∀ blob ∈ blobs, server.host.backend.atRest blob.1 = some blob.2) :
    (server.importBlobs env blobs).1 = ⟨server.host,
      (blobs.takeWhile server.host.backend.writes).foldl (fun room blob => room.putBlob env blob.2)
        server.room⟩ := by
  induction blobs generalizing server with
  | nil => rfl
  | cons blob rest ih =>
    obtain ⟨hash, bytes⟩ := blob
    rw [importBlobs, persistBlob]
    cases faulty : server.host.backend.writeFault hash with
    | some fault =>
      rw [takeWhile_cons_of_neg (by simp [BlobBackend.writes, faulty])]
      rfl
    | none =>
      have unchanged : update server.host.backend.atRest hash (some bytes) =
          server.host.backend.atRest := by rw [← stored _ (.head _), update_eq_self]
      rw [takeWhile_cons_of_pos (by simp [BlobBackend.writes, faulty]), unchanged]
      cases (server.host.backend.atRest hash).isSome && !server.host.backend.replaces <;>
        exact ih fun blob member => stored blob (.tail _ member)

end

end ArchiveServer

section
variable {env : ArchiveEnv} {room : ArchiveRoom} {blobs : List (Hash × List U8)}

theorem putBlob_graph (env : ArchiveEnv) (room : ArchiveRoom) (bytes : List U8) :
    (room.putBlob env bytes).graph = room.graph := by
  rw [putBlob]
  split <;> rfl

theorem putBlob_isSome {hash : Hash} (present : (room.blobs hash).isSome) :
    ((room.putBlob env bytes).blobs hash).isSome := by
  rw [putBlob]
  split
  · exact present
  · dsimp only
    rw [update_apply]
    split
    · rfl
    · exact present

theorem putBlob_self (env : ArchiveEnv) (room : ArchiveRoom) (bytes : List U8) :
    ((room.putBlob env bytes).blobs (env.crypto.blake3 bytes)).isSome := by
  rw [putBlob]
  split
  · assumption
  · dsimp only
    rw [update_self]
    rfl

theorem putBlobs_graph (env : ArchiveEnv) (room : ArchiveRoom) (blobs : List (Hash × List U8)) :
    (blobs.foldl (fun room blob => room.putBlob env blob.2) room).graph = room.graph := by
  induction blobs generalizing room with
  | nil => rfl
  | cons blob rest ih => exact (ih _).trans (putBlob_graph ..)

theorem putBlobs_isSome {hash : Hash} (present : (room.blobs hash).isSome) :
    ((blobs.foldl (fun room blob => room.putBlob env blob.2) room).blobs hash).isSome := by
  induction blobs generalizing room with
  | nil => exact present
  | cons blob rest ih => exact ih (putBlob_isSome present)

/-- Blobs leave the memory as it was exactly when they are in it. -/
theorem putBlobs_blobs_eq_iff :
    (blobs.foldl (fun room blob => room.putBlob env blob.2) room).blobs = room.blobs ↔
      ∀ blob ∈ blobs, (room.blobs (env.crypto.blake3 blob.2)).isSome := by
  induction blobs generalizing room with
  | nil => exact ⟨fun _ => nofun, fun _ => rfl⟩
  | cons blob rest ih =>
    rw [foldl_cons, forall_mem_cons]
    by_cases present : (room.blobs (env.crypto.blake3 blob.2)).isSome
    · have same : room.putBlob env blob.2 = room := by
        exact if_pos present
      rw [same, ih]
      exact (and_iff_right present).symm
    · refine ⟨fun same => ?_, fun all => absurd all.1 present⟩
      have put := @putBlobs_isSome env _ rest _ (putBlob_self env room blob.2)
      rw [same] at put
      exact absurd put present

end

section
variable {env : ArchiveEnv} {server : ArchiveServer} {request : LoadedImport} {nowMs : Nat}

/-- Where an import ends, whether it is then refused or not. -/
def ArchiveServer.afterImport (env : ArchiveEnv) (server : ArchiveServer) (request : LoadedImport)
    (nowMs : Nat) : ArchiveServer :=
  let merged := server.importNodes env nowMs request.loaded.nodes
  if (NodalMerge.importNodes env.crypto nowMs server.room.graph request.loaded.nodes).errors.isEmpty
      = false then merged
  else (merged.storeBlobs env request).1

theorem processArchiveImport_eq {host : ArchiveHost} {archiveRef importMode : Option String}
    {expected : Option ArchiveCheckpoint} {order : HashOrder}
    (read : loadImport env server archiveRef importMode order = (host, .ok request)) :
    processArchiveImport env server ⟨archiveRef, importMode, expected⟩ nowMs order =
      applyImport env ⟨host, server.room⟩ request expected nowMs := by
  rw [processArchiveImport]
  rw [read]

theorem applyImport_server (env : ArchiveEnv) (server : ArchiveServer) (request : LoadedImport)
    (expected : Option ArchiveCheckpoint) (nowMs : Nat) :
    (applyImport env server request expected nowMs).1 = server.afterImport env request nowMs := by
  rw [applyImport, ArchiveServer.afterImport]
  dsimp only
  split
  · rfl
  · split
    · rfl
    · split <;> rfl

theorem importBlobs_graph (env : ArchiveEnv) (server : ArchiveServer)
    (blobs : List (Hash × List U8)) :
    (server.importBlobs env blobs).1.room.graph = server.room.graph := by
  induction blobs generalizing server with
  | nil => rfl
  | cons blob rest ih =>
    rw [ArchiveServer.importBlobs]
    split
    · rfl
    · exact (ih _).trans (putBlob_graph ..)

theorem storeBlobs_graph (env : ArchiveEnv) (server : ArchiveServer) (request : LoadedImport) :
    (server.storeBlobs env request).1.room.graph = server.room.graph := by
  rw [ArchiveServer.storeBlobs]
  split
  · rfl
  · exact importBlobs_graph ..

/-- Blobs that are at rest leave the server as it was exactly when the ones put into
memory are there. -/
theorem unchanged_storeBlobs_iff
    (stored : ∀ blob ∈ request.loaded.blobs, server.host.backend.atRest blob.1 = some blob.2) :
    server.Unchanged (server.storeBlobs env request).1 ↔
      (request.importMode ≠ "metadata_only" →
        ∀ blob ∈ request.loaded.blobs.takeWhile server.host.backend.writes,
          (server.room.blobs (env.crypto.blake3 blob.2)).isSome) := by
  rw [ArchiveServer.storeBlobs]
  split
  · rename_i light
    exact ⟨fun _ full => absurd light full, fun _ => ⟨rfl, rfl, rfl, rfl⟩⟩
  · rename_i full
    rw [importBlobs_eq stored]
    constructor
    · intro unchanged _
      exact putBlobs_blobs_eq_iff.mp unchanged.blobs
    · intro present
      exact ⟨putBlobs_graph .., rfl, putBlobs_blobs_eq_iff.mpr (present full), rfl⟩

theorem afterImport_graph (env : ArchiveEnv) (server : ArchiveServer) (request : LoadedImport)
    (nowMs : Nat) :
    (server.afterImport env request nowMs).room.graph =
      (importPasses env.crypto (some nowMs) server.room.graph request.loaded.nodes).graph := by
  rw [ArchiveServer.afterImport]
  split
  · rfl
  · exact storeBlobs_graph ..

/-- The import gets through all its stages: every node can be placed, every blob can be
written, and the state has the hash that is expected. -/
structure ArchiveServer.Completes (env : ArchiveEnv) (server : ArchiveServer)
    (request : LoadedImport) (expected : Option ArchiveCheckpoint) (nowMs : Nat) : Prop where
  placed : ∀ node ∈ request.loaded.nodes,
    Placed env.crypto (some nowMs) server.room.graph request.loaded.nodes node.id
  written : request.importMode ≠ "metadata_only" →
    ∀ blob ∈ request.loaded.blobs, server.host.backend.writes blob = true
  agreed : ∀ checkpoint ∈ expected, checkpoint.canonicalHash =
    (server.importNodes env nowMs request.loaded.nodes).room.checkpointHash env

theorem storeBlobs_ok_iff : (server.storeBlobs env request).2 = .ok () ↔
    (request.importMode ≠ "metadata_only" →
      ∀ blob ∈ request.loaded.blobs, server.host.backend.writes blob = true) := by
  rw [ArchiveServer.storeBlobs]
  split
  · rename_i light
    exact ⟨fun _ full => absurd light full, fun _ => rfl⟩
  · rename_i full
    rw [importBlobs_ok_iff]
    exact ⟨fun all _ => all, fun all => all full⟩

section
variable (sound : env.crypto.BatchSound request.loaded.nodes)
include sound

/-- When an import completes, and what it reports. -/
theorem applyImport_reports_iff {expected : Option ArchiveCheckpoint} {hash : String} :
    (∃ answer, (applyImport env server request expected nowMs).2 = .ok answer ∧
        answer.canonicalHash = hash) ↔
      server.Completes env request expected nowMs ∧
        (server.importNodes env nowMs request.loaded.nodes).room.checkpointHash env = hash := by
  have quiet : (NodalMerge.importNodes env.crypto nowMs server.room.graph
      request.loaded.nodes).errors.isEmpty = true ↔ _ :=
    List.isEmpty_iff.trans (importPasses_errors_eq_nil_iff sound)
  have stored := @storeBlobs_ok_iff env (server.importNodes env nowMs request.loaded.nodes) request
  have reported : ((server.importNodes env nowMs request.loaded.nodes).storeBlobs env
      request).1.room.checkpointHash env =
      (server.importNodes env nowMs request.loaded.nodes).room.checkpointHash env := by
    rw [ArchiveRoom.checkpointHash, storeBlobs_graph, ArchiveRoom.checkpointHash]
  rw [applyImport]
  dsimp only
  rw [reported]
  split
  · rename_i loud
    refine ⟨fun answered => by simp at answered, fun ⟨completes, _⟩ => ?_⟩
    rw [quiet.mpr completes.placed] at loud
    cases loud
  · rename_i silent
    have placed := quiet.mp (by simpa using silent)
    cases done : ((server.importNodes env nowMs request.loaded.nodes).storeBlobs env request).2 with
    | error fault =>
      refine ⟨fun answered => by simp at answered, fun ⟨completes, _⟩ => ?_⟩
      cases done.symm.trans (stored.mpr completes.written)
    | ok _ =>
      have agreed (shown : String) :
          (expected.any fun expected => expected.canonicalHash ≠ shown) = true ↔
            ¬ ∀ checkpoint ∈ expected, checkpoint.canonicalHash = shown := by
        cases expected <;> simp
      dsimp only
      split
      · rename_i differs
        exact ⟨fun answered => by simp at answered,
          fun ⟨completes, _⟩ => absurd completes.agreed ((agreed _).mp differs)⟩
      · rename_i same
        constructor
        · rintro ⟨answer, made, rfl⟩
          cases made
          exact ⟨⟨placed, stored.mp done, not_not.mp (mt (agreed _).mpr same)⟩, rfl⟩
        · rintro ⟨-, rfl⟩
          exact ⟨_, rfl, rfl⟩

/-- An import that does not complete is refused. -/
theorem applyImport_refused_iff {expected : Option ArchiveCheckpoint} :
    (∃ rejected, (applyImport env server request expected nowMs).2 = .error rejected) ↔
      ¬ server.Completes env request expected nowMs := by
  constructor
  · rintro ⟨rejected, refused⟩ completes
    obtain ⟨answer, made, -⟩ := (applyImport_reports_iff sound).mpr ⟨completes, rfl⟩
    cases refused.symm.trans made
  · intro incomplete
    cases outcome : (applyImport env server request expected nowMs).2 with
    | error rejected => exact ⟨rejected, rfl⟩
    | ok answer =>
      exact absurd ((applyImport_reports_iff sound).mp ⟨answer, outcome, rfl⟩).1 incomplete

/-- Nodes that leave the graph as it was leave the server as it was. -/
theorem importNodes_eq_self
    (untouched : Untouched env.crypto (some nowMs) server.room.graph request.loaded.nodes) :
    server.importNodes env nowMs request.loaded.nodes = server := by
  have same : (NodalMerge.importNodes env.crypto nowMs server.room.graph
      request.loaded.nodes).graph = server.room.graph := (importPasses_graph_eq_iff sound).mpr untouched
  have nothing : importedNodes env.crypto nowMs server.room.graph request.loaded.nodes = [] := by
    obtain ⟨added, data, accepted⟩ :=
      importPasses_data env.crypto (some nowMs) server.room.graph request.loaded.nodes
    have empty : added = [] := by
      rw [NodalMerge.importNodes] at same
      rw [same] at data
      exact append_cancel_left (data.symm.trans (append_nil _).symm)
    rw [importedNodes, NodalMerge.importNodes, accepted, empty]
    rfl
  rw [ArchiveServer.importNodes, nothing, same]
  rfl

theorem afterImport_of_untouched
    (untouched : Untouched env.crypto (some nowMs) server.room.graph request.loaded.nodes) :
    server.afterImport env request nowMs =
      if ∀ node ∈ request.loaded.nodes, server.room.graph.nodes.contains node.id = true then
        (server.storeBlobs env request).1
      else server := by
  have quiet :
      (NodalMerge.importNodes env.crypto nowMs server.room.graph request.loaded.nodes).errors = [] ↔
        ∀ node ∈ request.loaded.nodes, server.room.graph.nodes.contains node.id = true := by
    rw [NodalMerge.importNodes, importPasses_errors_eq_nil_iff sound]
    refine forall₂_congr fun node _ => ?_
    rw [← importPasses_contains_iff sound, (importPasses_graph_eq_iff sound).mpr untouched]
  rw [ArchiveServer.afterImport, importNodes_eq_self sound untouched]
  split
  · rename_i loud
    rw [if_neg (fun contained => by simp [quiet.mpr contained] at loud)]
  · rename_i empty
    rw [if_pos (quiet.mp (by simpa using empty))]

/-- An import leaves the server as it was exactly when it touches no new node and,
if it gets as far as the blobs, those it puts into memory are there. -/
theorem unchanged_afterImport_iff
    (stored : ∀ blob ∈ request.loaded.blobs, server.host.backend.atRest blob.1 = some blob.2) :
    server.Unchanged (server.afterImport env request nowMs) ↔
      Untouched env.crypto (some nowMs) server.room.graph request.loaded.nodes ∧
        ((∀ node ∈ request.loaded.nodes, server.room.graph.nodes.contains node.id = true) →
          request.importMode ≠ "metadata_only" →
          ∀ blob ∈ request.loaded.blobs.takeWhile server.host.backend.writes,
            (server.room.blobs (env.crypto.blake3 blob.2)).isSome) := by
  by_cases untouched : Untouched env.crypto (some nowMs) server.room.graph request.loaded.nodes
  · rw [and_iff_right untouched, afterImport_of_untouched sound untouched]
    split
    · rename_i contained
      rw [unchanged_storeBlobs_iff stored]
      exact ⟨fun present _ => present, fun present => present contained⟩
    · rename_i missing
      exact ⟨fun _ contained => absurd contained missing, fun _ => ⟨rfl, rfl, rfl, rfl⟩⟩
  · refine ⟨fun unchanged => absurd ?_ untouched, fun all => absurd all.1 untouched⟩
    rw [← importPasses_graph_eq_iff sound, ← afterImport_graph]
    exact unchanged.graph

end

/-- A refusal leaves the server as it was exactly when the import completes after all,
or the archive's nodes leave the graph alone and its blobs leave the memory alone. -/
theorem rejected_import_unchanged_iff (env : ArchiveEnv) (server : ArchiveServer)
    (archiveRef importMode : Option String) (expected : Option ArchiveCheckpoint) (nowMs : Nat)
    (order : HashOrder) (sound : ∀ request,
      (loadImport env server archiveRef importMode order).2 = .ok request →
        env.crypto.BatchSound request.loaded.nodes) :
    (∀ rejected,
      (processArchiveImport env server ⟨archiveRef, importMode, expected⟩ nowMs order).2 =
          .error rejected →
        server.Unchanged
          (processArchiveImport env server ⟨archiveRef, importMode, expected⟩ nowMs order).1) ↔
      ∀ request, (loadImport env server archiveRef importMode order).2 = .ok request →
        server.Completes env request expected nowMs ∨
          Untouched env.crypto (some nowMs) server.room.graph request.loaded.nodes ∧
            ((∀ node ∈ request.loaded.nodes, server.room.graph.nodes.contains node.id = true) →
              request.importMode ≠ "metadata_only" →
              ∀ blob ∈ request.loaded.blobs.takeWhile server.host.backend.writes,
                (server.room.blobs (env.crypto.blake3 blob.2)).isSome) := by
  have hosts := loadImport_host env server archiveRef importMode order
  have atRest (request : LoadedImport) :=
    @atRest_of_loadImport env server archiveRef importMode order request
  rcases read : loadImport env server archiveRef importMode order with ⟨host, refused | request⟩
  all_goals
    rw [read] at hosts atRest sound
    obtain ⟨table, backend⟩ := hosts
  · refine ⟨fun _ _ => nofun, fun _ rejected _ => ?_⟩
    rw [processArchiveImport]
    rw [read]
    exact ⟨rfl, table, rfl, congrArg BlobBackend.atRest backend⟩
  · -- Of the host the load writes to the cache of manifests only.
    have cached (after : ArchiveServer) :
        server.Unchanged after ↔ (ArchiveServer.mk host server.room).Unchanged after := by
      have atRest : server.host.backend.atRest = host.backend.atRest := by rw [backend]
      constructor
      · exact fun same => ⟨same.graph, same.table.trans table.symm, same.blobs,
          same.atRest.trans atRest⟩
      · exact fun same => ⟨same.graph, same.table.trans table, same.blobs,
          same.atRest.trans atRest.symm⟩
    have through : server.Completes env request expected nowMs ↔
        (ArchiveServer.mk host server.room).Completes env request expected nowMs := by
      constructor
      all_goals
        exact fun completes => ⟨completes.placed, backend ▸ completes.written, completes.agreed⟩
    have stored := atRest request rfl
    rw [← backend] at stored ⊢
    have outcome := @unchanged_afterImport_iff env (ArchiveServer.mk host server.room) request nowMs
      (sound request rfl) stored
    have refused := @applyImport_refused_iff env (ArchiveServer.mk host server.room) request nowMs
      (sound request rfl) expected
    rw [processArchiveImport_eq read, applyImport_server, cached]
    constructor
    · intro holds loaded found
      cases found
      rw [through, or_iff_not_imp_left, ← refused]
      rintro ⟨rejected, answered⟩
      exact outcome.mp (holds rejected answered)
    · intro condition rejected answered
      rcases condition request rfl with completes | untouched
      · exact absurd (through.mp completes) (refused.mp ⟨rejected, answered⟩)
      · exact outcome.mpr untouched

end

/-- The server with the persisted node, and a room with the given graph. -/
def ArchiveServer.sample (graph : StateGraph) : ArchiveServer :=
  ⟨.sample, { ArchiveRoom.sample with graph := graph }⟩

/-- The room `r` is imported as its own archive, with a checkpoint that no state has. -/
def ArchiveServer.importSample (graph : StateGraph) :
    ArchiveServer × Except ArchiveRejected ArchiveImported :=
  processArchiveImport (.sample "") (.sample graph) ⟨some "room://r", none, some ⟨[], "none"⟩⟩ 0
    someOrder

theorem error_of_isNone {result : Except Error Value} (none : result.toOption.isNone = true) :
    ∃ error, result = .error error := by
  cases result with
  | error error => exact ⟨error, rfl⟩
  | ok value => cases none

/-- An import with another checkpoint than the expected one is refused, and leaves a room
that holds the archive alone. -/
theorem stored_archive_leaves_room_alone :
    let server : ArchiveServer := .sample (empty.accept sampleNode)
    let outcome := processArchiveImport (.sample "") server
      ⟨some "room://r", none, some ⟨[], "none"⟩⟩ 0 someOrder
    (∃ rejected, outcome.2 = .error rejected) ∧ server.Unchanged outcome.1 := by
  have refused :
      (ArchiveServer.importSample (empty.accept sampleNode)).2.toOption.isNone = true := by
    decide +kernel
  have loads : ((loadImport (.sample "") (.sample (empty.accept sampleNode)) (some "room://r") none
      someOrder).2.toOption.all fun request =>
        request.loaded.nodes = [sampleNode] ∧ request.loaded.blobs = []) = true := by
    decide +kernel
  obtain ⟨rejected, answered⟩ := error_of_isNone refused
  refine ⟨⟨rejected, answered⟩, (rejected_import_unchanged_iff (.sample "") _ _ _ _ 0 _
    fun _ _ => Crypto.sample_batchSound _).mpr (fun request read => .inr ?_) rejected answered⟩
  rw [read] at loads
  obtain ⟨nodes, blobs⟩ := of_decide_eq_true loads
  rw [nodes, blobs]
  constructor
  · intro node last fresh
    obtain rfl : node = sampleNode := mem_singleton.mp (mem_of_lastCopy last).1
    exact absurd fresh (by decide)
  · intro _ _ blob member
    cases member

/-- An import whose checkpoint is not the expected one is refused, and its node stays. -/
theorem refused_import_keeps_its_node :
    let server : ArchiveServer := .sample .empty
    let outcome := processArchiveImport (.sample "") server
      ⟨some "room://r", none, some ⟨[], "none"⟩⟩ 0 someOrder
    (∃ rejected, outcome.2 = .error rejected) ∧
      server.room.graph.nodes.contains sampleNode.id = false ∧
      outcome.1.room.graph.nodes.contains sampleNode.id = true := by
  have checked : (ArchiveServer.importSample .empty).2.toOption.isNone = true ∧
      (ArchiveServer.importSample .empty).1.room.graph.nodes.contains sampleNode.id = true := by
    decide +kernel
  exact ⟨error_of_isNone checked.1, by decide, checked.2⟩

end NodalMerge
