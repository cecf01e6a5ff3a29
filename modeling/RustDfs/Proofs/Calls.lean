import RustDfs.Proofs.Effects
import RustDfs.Proofs.Rules
import RustDfs.Proofs.Tasks

/-!
# `RustDfs.Proofs.Calls`: the `download_file` calls of a run

What a history says about the calls: which request each was started
with, which record it stored, and which calls were accepted. A call slot
is used once, so what a call was asked for does not change any more
(`requestOf_cons`).
-/

set_option autoImplicit false

namespace RustDfs

open Lib Conc

/-- The request `download_file` call `n` was started with. -/
def requestOf (n : Nat) : List NodeEvent → Option DownloadFileRequest
  | [] => none
  | .start (.downloadFile m request) :: h => if m = n then some request else requestOf n h
  | _ :: h => requestOf n h

/-- A `download_file` call storing its record. -/
def stored? : NodeEvent → Option (Nat × PendingDownloadRecord)
  | .op (.call n) (.store (.putPendingDownload r)) (.ok _) => some (n, r)
  | _ => none

/-- A `download_file` call ending with `Ok`. -/
def accepted? : NodeEvent → Option Nat
  | .exit (.call n) (.accepted (.ok _)) => some n
  | _ => none

/-- A deletion of a pending record. -/
def deleted? : NodeEvent → Option PublishedFileKey
  | .op _ (.store (.deletePendingDownload k)) (.ok _) => some k
  | _ => none

/-- A program starting a download. -/
def started? : NodeEvent → Option PendingDownloadRecord
  | .spawn _ (.download r) => some r
  | _ => none

/-- How often the pending record of a key was deleted. -/
def deletions (k : PublishedFileKey) (h : List NodeEvent) : Nat :=
  (h.filterMap deleted?).count k

theorem deletions_le {k : PublishedFileKey} {h h' : List NodeEvent} (hs : h <:+ h') :
    deletions k h ≤ deletions k h' :=
  (hs.sublist.filterMap _).count_le k

/-- An accepted call left with `Ok`. -/
theorem eq_of_accepted {i : Slot} {r : Res} {n : Nat}
    (h : accepted? (.exit (L := lang) i r) = some n) : i = .call n ∧ r = .accepted (.ok ()) := by
  unfold accepted? at h
  split at h
  · next heq =>
      cases heq
      cases h
      exact ⟨rfl, rfl⟩
  · cases h

/-- The calls that stored a record under a key, the latest first. -/
def storedBy (k : PublishedFileKey) : List NodeEvent → List Nat
  | [] => []
  | e :: h =>
      match stored? e with
      | some (n, r) => if r.key = k then n :: storedBy k h else storedBy k h
      | none => storedBy k h

theorem storedBy_of_not_stored {k : PublishedFileKey} {e : NodeEvent} (he : stored? e = none)
    (h : List NodeEvent) : storedBy k (e :: h) = storedBy k h := by
  simp only [storedBy, he]

/-- Nothing that was stored is forgotten. -/
theorem mem_storedBy_cons {k : PublishedFileKey} {n : Nat} {h : List NodeEvent}
    (hn : n ∈ storedBy k h) (e : NodeEvent) : n ∈ storedBy k (e :: h) := by
  unfold storedBy
  split
  · split
    · exact List.mem_cons_of_mem _ hn
    · exact hn
  · exact hn

theorem mem_storedBy_of_suffix {k : PublishedFileKey} {n : Nat} {h h' : List NodeEvent}
    (hs : h <:+ h') (hn : n ∈ storedBy k h) : n ∈ storedBy k h' := by
  obtain ⟨t, rfl⟩ := hs
  induction t with
  | nil => exact hn
  | cons e t ih => exact mem_storedBy_cons ih e

/-- What a call was asked for it was started with. -/
theorem start_of_requestOf {n : Nat} {request : DownloadFileRequest} {h : List NodeEvent}
    (hr : requestOf n h = some request) : .start (.downloadFile n request) ∈ h := by
  induction h with
  | nil => cases hr
  | cons e h ih =>
      unfold requestOf at hr
      split at hr
      · cases ‹_ = []›
      · next m request' h' heq =>
          cases heq
          split at hr
          · next hm =>
              cases hr
              subst hm
              exact List.mem_cons_self
          · exact List.mem_cons_of_mem _ (ih hr)
      · next heq =>
          cases heq
          exact List.mem_cons_of_mem _ (ih hr)

/-- The request of a call stays what it is. -/
theorem requestOf_cons {v : NodeView} {e : NodeEvent} (hg : environment v e) {n : Nat}
    {request : DownloadFileRequest} (hr : requestOf n v.hist = some request) :
    requestOf n (e :: v.hist) = some request := by
  unfold requestOf
  split
  · cases ‹_ = []›
  · next m request' h' heq =>
      cases heq
      split
      · next hm =>
          subst hm
          have hstart := start_of_requestOf hr
          exact absurd rfl (hg.2 rfl _ hstart)
      · exact hr
  · next heq =>
      cases heq
      exact hr

end RustDfs
