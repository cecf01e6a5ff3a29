import RustDfs.Lib.Cbor
import RustDfs.Model.Search

/-!
# `RustDfs.Model.SearchReference`: a node to run searches on

The CBOR form of a search request, a node that searches under a topic,
and the parts of the scripts such a node runs.
-/

set_option autoImplicit false

namespace RustDfs.Search.Reference

open Lib Conc

open Cbor in
/-- The CBOR form of a `FileSearchRequest`. -/
def requestCodec : Codec FileSearchRequest :=
  (struct 2 <| (field "session_id" text).pair (field "search_value" text)).retract
    (fun r => (r.sessionId, r.searchValue)) (fun (id, value) => some ⟨id, value⟩) fun _ => rfl

/-- A node that searches under the topic `files`. -/
@[reducible] def config : Config where
  fileSearchTopic := some "files"
  requests :=
    { toVec := fun _ r => .ok (requestCodec.bytes r)
      fromSlice := fun bytes =>
        match requestCodec.decode bytes with
        | some r => .ok r
        | none => .error "the request cannot be read"
      fromSlice_toVec := fun h => by
        cases h
        rw [requestCodec.decode_bytes] }
  toLowercase s := String.ofList (s.toList.map Char.toLower)

/-- The next `n` operations of a slot, all of which succeed. -/
def ops (i : Slot) (n : Nat) : List (Move lang Choice) := List.replicate n (.op i .ok)

/-- Call `k` searches for the value; its task has `fuel`. -/
def call (k fuel : Nat) (value : String) : List (Move lang Choice) :=
  .start (.search k fuel value) :: ops (.call k) 2 ++ [.spawn (.call k), .exit (.call k)]

/-- A pass of the event loop with a command, whose handler performs `n`
operations. -/
def commandPass (n : Nat) : List (Move lang Choice) :=
  .start .command :: ops .eventLoop (n + 1) ++ [.exit .eventLoop]

/-- The result of another node for the session under `id` arrives and is
passed on. -/
def result (id : String) (found : FileFound) : List (Move lang Choice) :=
  [.start .swarmEvent, .op .eventLoop (.event (.fileSearchResult 3 ⟨id, found⟩ 0))] ++
    ops .eventLoop 3 ++ [.exit .eventLoop]

end RustDfs.Search.Reference
