import RustDfs.Model.Reference
import RustDfs.Proofs.NodeCauses

/-!
# `RustDfs.Proofs.Announced`: what stands behind an announced key

A node announces the keys of files and chunks from three places: the
publisher, the start-up and the commands of calls, downloads and chunk
tasks. `announced` says what every key it provides rests on (`Grounds`):
a file it split, a record it had stored and whose metadata it read, a
download it prepared or completed, or a chunk it verified and wrote. It
never announces a chunk it did not have.

The event loop has its reason in its own slot (`Causes.Entitled`). Where
the reason is a command, a job or a stored record, the flow leads to the
slot that put it there, and to the causes there.
-/

set_option autoImplicit false

namespace RustDfs.Announced

open Lib Conc Causes

section Proof

variable [Platform]

/-- What an announced key, with the record put for it, rests on. -/
inductive Grounds (w₀ : World) (h : List NodeEvent) (key value : Bytes) : Prop
  /-- A call split the file and queued its metadata. -/
  | split (n : Nat) (m : FileMetadata) (hm : Split (.call n) m h) (hk : Announces m key value)
  /-- The metadata was queued before the run. -/
  | queued (m : FileMetadata) (hm : Queued w₀ m) (hk : Announces m key value)
  /-- The start-up found the published record of the file and read its
  metadata. -/
  | stored (r : PublishedFileRecord) (m : FileMetadata)
      (hr : Stored w₀ r ∨ ∃ i, HasPublished i r h) (hm : HasRead .eventLoop r.chunksDir m h)
      (hk : Announces m key value)
  /-- A call prepared the download of the file. -/
  | prepared (n : Nat) (m : FileMetadata) (hm : Prepared (.call n) m h) (hk : key = m.key.bytes)
      (hv : value = m.publishedFileBytes)
  /-- A download of the file was completed. -/
  | completed (i : Slot) (m : FileMetadata) (hm : Completed i m h) (hk : key = m.key.bytes)
      (hv : value = m.publishedFileBytes)
  /-- A task verified and wrote the chunk. -/
  | chunk (r : FileChunkRequest) (hr : Verified (.chunk r.fileId r.chunkId) r h)
      (hk : key = r.toBytes) (hv : value = r.toBytes)

variable {w : World} {p : NodePool} {key value : Bytes}

/-- A job was queued by a call that had split its file, or before the
run. -/
theorem grounds_of_job (hr : Reach machine environment (.idle w) p) {m : FileMetadata}
    (hm : .op .eventLoop (.store .getNextFileMetadata) (.ok (some m)) ∈ p.hist)
    (hk : Announces m key value) : Grounds w p.hist key value := by
  obtain ⟨before, hs⟩ := suffix_of_mem hm
  obtain start | ⟨e, he, put⟩ := (jobs.of_reach hr).gets _ _ m hs rfl
  · exact .queued m start hk
  · unfold Queues at put
    split at put
    · subst put
      obtain ⟨_, hbefore, ⟨n, rfl⟩, split⟩ := cause_of_mem hr (hs.mem (List.mem_cons_of_mem _ he))
      exact .split n _ (split.mono (subset_of_own hbefore)) hk
    · exact put.elim

/-- A record the start-up found had been stored. -/
theorem grounds_of_stored (hr : Reach machine environment (.idle w) p)
    {records : List PublishedFileRecord} {r : PublishedFileRecord} {m : FileMetadata}
    (hs : .op .eventLoop (.store .streamPublishedFiles) (.ok records) ∈ p.hist) (hmem : r ∈ records)
    (hm : HasRead .eventLoop r.chunksDir m p.hist) (hk : Announces m key value) :
    Grounds w p.hist key value := by
  refine .stored r m ?_ hm hk
  obtain ⟨before, hs⟩ := suffix_of_mem hs
  obtain start | ⟨e, he, put⟩ := (Causes.records.of_reach hr).gets _ _ r hs hmem
  · exact .inl start
  · unfold Stores at put
    split at put
    · subst put
      exact .inr ⟨_, hs.mem (List.mem_cons_of_mem _ he)⟩
    · exact put.elim

/-- A command was sent by a slot that had its causes. -/
theorem sent_of_received (hr : Reach machine environment (.idle w) p) (hw : w.chan.commands = [])
    {command : P2pCommand} (hc : .op .eventLoop (.chan .recvCommand) command ∈ p.hist) :
    ∃ i before, before ⊆ p.hist ∧
      Cause i (.op i (.chan (.sendCommand command)) (.ok ())) before := by
  obtain ⟨before, hs⟩ := suffix_of_mem hc
  obtain start | ⟨e, he, put⟩ := (commands.of_reach hr).gets _ _ command hs rfl
  · rw [hw] at start
    cases start
  · unfold Sends at put
    split at put
    · subst put
      obtain ⟨before, hbefore, cause⟩ := cause_of_mem hr (hs.mem (List.mem_cons_of_mem _ he))
      exact ⟨_, before, subset_of_own hbefore, cause⟩
    · exact put.elim

/-- What entitles the event loop in its slot has its grounds in the run. -/
theorem grounds_of_entitled (hr : Reach machine environment (.idle w) p)
    (hw : w.chan.commands = []) (he : Entitled key value p.hist) : Grounds w p.hist key value := by
  cases he with
  | job m hm hk => exact grounds_of_job hr hm hk
  | stored records r m hs hmem hm hk => exact grounds_of_stored hr hs hmem hm hk
  | metadata m hc hk hv =>
      obtain ⟨i, before, hsub, cause⟩ := sent_of_received hr hw hc
      obtain ⟨⟨n, rfl⟩, prepared⟩ | completed := cause
      · exact .prepared n m (prepared.mono hsub) hk hv
      · exact .completed i m (completed.mono hsub) hk hv
  | chunk r hc hk hv =>
      obtain ⟨i, before, hsub, verified⟩ := sent_of_received hr hw hc
      obtain rfl := verified.1
      exact .chunk r (Verified.mono verified hsub) hk hv

/-- Every key a node provides had its record put, and has its grounds. -/
theorem announced (hr : Reach machine environment (.idle w) p) (hw : w.chan.commands = [])
    (hprovided : w.swarm.provided = []) {key : Bytes} (hkey : key ∈ p.world.swarm.provided) :
    ∃ value, .op .eventLoop (.swarm (.putRecord key value)) (.ok ()) ∈ p.hist ∧
      Grounds w p.hist key value := by
  obtain start | ⟨e, he, put⟩ := (provided.of_reach hr).holds key hkey
  · rw [hprovided] at start
    cases start
  · unfold Provides at put
    split at put
    · subst put
      obtain ⟨t, ht, ho⟩ := op_of_reach body_within hr he
      have loop := of_swarm ho
      rw [show slotOf t = _ from ht] at loop
      subst loop
      obtain ⟨before, hbefore, value, record, entitled⟩ := cause_of_mem hr he
      have hsub := subset_of_own hbefore
      exact ⟨value, hsub record, grounds_of_entitled hr hw (entitled.mono hsub)⟩
    · exact put.elim

end Proof

/-! ### A download -/

section Example

open Reference

attribute [local instance] platform

/-- The chunk of the file arrives, is saved and announced. -/
def chunkAnnounced : List (Move lang Choice) :=
  acceptOnly oneByte ++ tickStream ++ tickStart ++ openDownload oneByte.key 1 ++
    askChunk oneByte.key 0 ++ askProvider 1 (.fileDownload (.response 0 (.success [7]))) ++
    saveChunk oneByte.key 0 ++ commandPass 2

/-- The file and its chunk are announced before the download is complete,
and have their grounds. -/
theorem announced_chunk :
    ∃ p, Reach machine environment (.idle (emptyDir 1)) p ∧
      p.world.swarm.provided = [FileChunkRequest.toBytes ⟨oneByte.key.toU64, 0⟩, oneByte.key.bytes] ∧
      ∀ key ∈ p.world.swarm.provided, ∃ value,
        .op .eventLoop (.swarm (.putRecord key value)) (.ok ()) ∈ p.hist ∧
          Grounds (emptyDir 1) p.hist key value := by
  have run : ∃ p, Reach machine environment (.idle (emptyDir 1)) p ∧
      p.world.swarm.provided =
        [FileChunkRequest.toBytes ⟨oneByte.key.toU64, 0⟩, oneByte.key.bytes] :=
    exists_reach_of_runScript chunkAnnounced (by decide +kernel)
  obtain ⟨p, hp, hprovided⟩ := run
  exact ⟨p, hp, hprovided, fun key hkey => announced hp rfl rfl hkey⟩

end Example

end RustDfs.Announced
