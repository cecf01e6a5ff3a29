import RustDfs.Model.FileProcessing

/-!
# `RustDfs.Model.EventService`: the handlers of the event loop

`p2p/events.rs`: commands, provider queries, the two request/response
behaviours and publishing. Log lines are left out. The fields of the
service are read and replaced with `events .self` and
`events (.setSelf _)`.
-/

set_option autoImplicit false

namespace RustDfs

open Lib Conc

namespace EventService

/-- `EventService::send_file_response`; a failure is only logged. -/
def sendFileResponse (channel : ResponseChannel) (response : FileResponse) : Proc Unit := do
  let _ ← swarm (.sendResponse channel response)
  return ()

section Providing

variable [Platform]

/-- `EventService::provide_metadata`. -/
def provideMetadata (metadata : FileMetadata) : ExceptT String Proc Unit := do
  let rawKey := metadata.key.bytes
  ExceptT.mk (swarm (.putRecord rawKey metadata.publishedFileBytes))
  ExceptT.mk (swarm (.startProviding rawKey))

/-- `EventService::provide_file_chunk`. -/
def provideFileChunk (fileChunk : FileChunkRequest) : ExceptT String Proc Unit := do
  let value := fileChunk.toBytes
  ExceptT.mk (swarm (.putRecord value value))
  ExceptT.mk (swarm (.startProviding value))

/-- `provide_file_chunk` of some chunks of a file. -/
def provideFileChunks (fileId : UInt64) : List Nat → ExceptT String Proc Unit
  | [] => pure ()
  | chunkId :: chunkIds => do
      provideFileChunk ⟨fileId, chunkId⟩
      provideFileChunks fileId chunkIds

/-- `EventService::provide_all`. -/
def provideAll (metadata : FileMetadata) : ExceptT String Proc Unit := do
  provideMetadata metadata
  provideFileChunks metadata.key.toU64 (List.range metadata.totalChunks)

/-- The loop of `provide_all_published_files` over the streamed records. -/
def provideEach : List PublishedFileRecord → ExceptT String Proc Unit
  | [] => pure ()
  | record :: records => do
      (store .streamItem).adapt FileStoreError.text
      match ← ExceptT.lift (fs (.read (metadataPath record.chunksDir))).run with
      | .ok data =>
          match Platform.decodeMetadata data with
          | .ok metadata => provideAll metadata
          | .error e => throw e
      | .error _ => pure ()
      provideEach records

/-- `EventService::provide_all_published_files`. -/
def provideAllPublishedFiles : ExceptT String Proc Unit := do
  let records ← (store .streamPublishedFiles).adapt FileStoreError.text
  provideEach records

/-! ### Publishing -/

/-- `while let Err(_) = action { sleep }`. -/
def retry {ε α : Type} (action : ExceptT ε Proc α) : Nat → Proc α
  | 0 => diverge
  | fuel + 1 => do
      match ← action.run with
      | .ok a => return a
      | .error _ => retry action fuel

/-- `EventService::add_published_file`. -/
def addPublishedFile (fuel : Nat) (metadata : FileMetadata) : Proc Unit :=
  retry (store (.putPublishedFile (.ofMetadata metadata))) fuel

/-- `EventService::delete_file_metadata`. -/
def deleteFileMetadata (fuel : Nat) (metadataKey : PublishedFileKey) : Proc Unit :=
  retry (store (.deleteFileMetadata metadataKey)) fuel

/-- `EventService::file_publish`. -/
def filePublish (fuel : Nat) (result : Except FileStoreError FileMetadata) : Proc Unit := do
  match result with
  | .ok metadata => do
      retry (provideAll metadata) fuel
      let rawKey := metadata.key
      addPublishedFile fuel metadata
      deleteFileMetadata fuel rawKey
  | .error _ => return ()

end Providing

/-! ### Commands -/

/-- `EventService::handle_command`. -/
def handleCommand [Platform] (command : P2pCommand) : Proc Unit := do
  match command with
  | .requestMetadata request result => do
      let key : PublishedFileKey := .ofU64 request.fileId
      let queryId ← swarm (.getProviders key.bytes)
      let self ← events .self
      events (.setSelf { self with
        metadataProvidersRequests :=
          self.metadataProvidersRequests.insert queryId ⟨∅, request, result⟩ })
  | .requestFileChunk request result => do
      let queryId ← swarm (.getProviders request.toBytes)
      let self ← events .self
      events (.setSelf { self with
        fileChunkProvidersRequests :=
          self.fileChunkProvidersRequests.insert queryId ⟨∅, request, result⟩ })
  | .provideMetadata metadata => do
      let _ ← (provideMetadata metadata).run
      return ()
  | .provideFileChunk request => do
      let _ ← (provideFileChunk request).run
      return ()

/-! ### Provider queries -/

/-- `FoundProviders` of `handle_get_metadata_providers_result`. -/
def handleFoundProviders (id : QueryId) (providers : Finset PeerId) : Proc Unit := do
  let self ← events .self
  match self.metadataProvidersRequests[id]? with
  | some data =>
      events (.setSelf { self with
        metadataProvidersRequests := self.metadataProvidersRequests.insert id
          { data with foundProviders := data.foundProviders ∪ providers } })
  | none =>
      match self.fileChunkProvidersRequests[id]? with
      | some data =>
          events (.setSelf { self with
            fileChunkProvidersRequests := self.fileChunkProvidersRequests.insert id
              { data with foundProviders := data.foundProviders ∪ providers } })
      | none => return ()

/-- `EventService::handle_all_possible_providers_found`. -/
def handleAllPossibleProvidersFound (id : QueryId) : Proc Unit := do
  let self ← events .self
  match self.metadataProvidersRequests[id]? with
  | some data => do
      events (.setSelf { self with
        metadataProvidersRequests := self.metadataProvidersRequests.erase id })
      match ← swarm (.chooseRandom data.foundProviders) with
      | some peer => do
          let requestId ← swarm (.sendMetadataRequest peer data.request)
          let self ← events .self
          events (.setSelf { self with
            metadataDownloadRequests :=
              self.metadataDownloadRequests.insert requestId data.result })
      | none => chan (.metadata (.send data.result none))
  | none =>
      match self.fileChunkProvidersRequests[id]? with
      | some data => do
          events (.setSelf { self with
            fileChunkProvidersRequests := self.fileChunkProvidersRequests.erase id })
          match ← swarm (.chooseRandom data.foundProviders) with
          | some peer => do
              let requestId ← swarm (.sendFileRequest peer data.request)
              let self ← events .self
              events (.setSelf { self with
                fileDownloadRequests := self.fileDownloadRequests.insert requestId data.result })
          | none => chan (.chunk (.send data.result none))
      | none => return ()

/-- `EventService::kademlia` down to
`handle_get_metadata_providers_result`. -/
def kademlia (id : QueryId) (result : QueryResult) : Proc Unit :=
  match result with
  | .getProviders (.ok (.foundProviders providers)) => handleFoundProviders id providers
  | .getProviders (.ok .finishedWithNoAdditionalRecord) => handleAllPossibleProvidersFound id
  | .getProviders (.error _) => handleAllPossibleProvidersFound id
  | .other => return ()

/-! ### Requests and responses -/

section Serving

variable [Platform]

/-- `EventService::handle_metadata_download_response`. -/
def handleMetadataDownloadResponse (response : FileResponse)
    (channel : OneshotSender (Option FileMetadata)) : Proc Unit :=
  match response with
  | .success data =>
      match Platform.decodeMetadata data with
      | .ok result => chan (.metadata (.send channel (some result)))
      | .error _ => chan (.metadata (.send channel none))
  | .notFound => chan (.metadata (.send channel none))
  | .error _ => chan (.metadata (.send channel none))

/-- `EventService::metadata_download`. Failures and the end of an inbound
request are only logged. -/
def metadataDownload (event : RequestResponseEvent MetadataFileRequest) : Proc Unit := do
  match event with
  | .request request channel => do
      match ← (store (.getPublishedFile (.ofU64 request.fileId))).run with
      | .ok (some record) => do
          match ← (fs (.read (metadataPath record.chunksDir))).run with
          | .ok data => sendFileResponse channel (.success data)
          | .error e => sendFileResponse channel (.error e.text)
      | .ok none => sendFileResponse channel .notFound
      | .error e => sendFileResponse channel (.error e.text)
  | .response requestId response => do
      let self ← events .self
      match self.metadataDownloadRequests[requestId]? with
      | some channel => do
          events (.setSelf { self with
            metadataDownloadRequests := self.metadataDownloadRequests.erase requestId })
          handleMetadataDownloadResponse response channel
      | none => return ()
  | _ => return ()

/-- `EventService::read_chunk`. -/
def readChunk (chunkId : Nat) (channel : ResponseChannel) (targetDir : PathBuf)
    (chunkFileExtension : String) : Proc Unit := do
  match ← (fs (.read (targetDir.join (chunkFileName chunkId chunkFileExtension)))).run with
  | .ok bytes => sendFileResponse channel (.success bytes)
  | .error e => sendFileResponse channel (.error e.text)

/-- `EventService::get_from_chunks`. -/
def getFromChunks (chunkId : Nat) (channel : ResponseChannel) (targetDir : PathBuf) :
    Proc Unit := do
  match ← (fs (.read (metadataPath targetDir))).run with
  | .ok bytes =>
      match Platform.decodeMetadata bytes with
      | .ok metadata =>
          if metadata.totalChunks ≤ chunkId then
            sendFileResponse channel (.error ("incorrect chunk number: " ++ toString chunkId))
          else
            readChunk chunkId channel metadata.chunksDir metadata.chunkFileExtension
      | .error e => sendFileResponse channel (.error e)
  | .error e => sendFileResponse channel (.error e.text)

/-- `EventService::try_from_pending_downloads`. -/
def tryFromPendingDownloads (fileId : UInt64) (chunkId : Nat) (channel : ResponseChannel) :
    Proc Unit := do
  match ← (store (.getPendingDownload (.ofU64 fileId))).run with
  | .ok none => sendFileResponse channel .notFound
  | .ok (some record) =>
      if chunkId ∈ record.downloadedChunks then
        getFromChunks chunkId channel record.chunksDir
      else
        sendFileResponse channel .notFound
  | .error e => sendFileResponse channel (.error e.text)

/-- `EventService::file_download`. Failures and the end of an inbound
request are only logged. -/
def fileDownload (event : RequestResponseEvent FileChunkRequest) : Proc Unit := do
  match event with
  | .request request channel => do
      match ← (store (.getPublishedFile (.ofU64 request.fileId))).run with
      | .ok none => tryFromPendingDownloads request.fileId request.chunkId channel
      | .ok (some record) => getFromChunks request.chunkId channel record.chunksDir
      | .error e => sendFileResponse channel (.error e.text)
  | .response requestId response => do
      let self ← events .self
      match self.fileDownloadRequests[requestId]? with
      | some channel => do
          events (.setSelf { self with
            fileDownloadRequests := self.fileDownloadRequests.erase requestId })
          chan (.chunk (.send channel (some response)))
      | none => return ()
  | _ => return ()

/-- `EventService::handle_swarm_event`. -/
def handleSwarmEvent (event : SwarmEvent) : Proc Unit :=
  match event with
  | .kademlia id result => kademlia id result
  | .fileDownload event => fileDownload event
  | .metadataDownload event => metadataDownload event
  | .other => return ()

end Serving

end EventService

end RustDfs
