import Mathlib
import MinaProtocol.Bitswap.Block
import MinaProtocol.Lib.NestedMap

/-!
# Bitswap.Downloader

The Bitswap downloader of the Go helper. Each root that is being downloaded has a state, and each block
still to come is filed under its CID with the roots whose trees it belongs to and its indices in them. A
block that arrives is checked against the schemas of these trees, and its links become pending.

A CID is identified with the hash in it. Go iterates over a map in any order; where the order shows, it is
an argument. `processDownloadedBlock` calls itself on the blocks that it finds in storage; here it returns
them, and they are processed before anything else happens. `none` is a panic.
-/

namespace MinaProtocol.Bitswap

open Std

abbrev Cid := BitswapBlockLink

abbrev Root := BitswapBlockLink

instance instTransOrdCid : TransOrd Cid := inferInstance

abbrev BitswapDataTag := UInt8

/-- A session, with the function that cancels it. -/
abbrev SessionId := Nat

structure BitswapDataConfig where
  maxSize : Int

inductive RootBlockStatus where
  | Partial
  | Full
  | Deleting
deriving DecidableEq

inductive ResourceUpdateType where
  | added
  | broken
  | removed
deriving DecidableEq

structure RootDownloadState where
  allDescendants : ExtTreeSet Cid
  session : SessionId
  schema : Option BitswapBlockSchema
  tag : BitswapDataTag
  remainingNodeCounter : Int

/-- A block with its CID. -/
structure Block where
  cid : Cid
  rawData : Bytes

structure BitswapConfig where
  maxBlockSize : Nat
  dataConfig : BitswapDataTag → Option BitswapDataConfig
  depthIndices : DepthIndices

structure BitswapState where
  /-- The stored blocks. -/
  storage : BlockMap
  statuses : Root → Option RootBlockStatus
  nodeDownloadParams : NestedMap Cid Root NodeIndex
  rootDownloadStates : ExtTreeMap Root RootDownloadState
  nextSession : SessionId
  /-- Requests through sessions that are not cancelled, for blocks that have not arrived since. -/
  requests : List (SessionId × Cid)
  /-- Deadline trackers that have not fired, with the session they were registered for. -/
  deadlines : List (Root × SessionId)
  resourceUpdates : List (ResourceUpdateType × Root)

/-- What fails in the environment during a step. -/
structure Faults where
  store : Bool
  setStatus : Bool
  deleteStatus : Bool
  deleteBlocks : Bool
  request : Bool
  view : Cid → Bool

/-- Nothing fails. -/
def noFaults : Faults where
  store := false
  setStatus := false
  deleteStatus := false
  deleteBlocks := false
  request := false
  view := fun _ => false

/-- The orders in which the maps of links and of roots are gone through. -/
structure MapOrder where
  links : List BitswapBlockLink
  roots : List Root

/-! ### The environment -/

def isStatusTransitionAllowed : Option RootBlockStatus → RootBlockStatus → Bool
  | none, .Partial => true
  | some .Partial, .Partial => true
  | none, .Full => true
  | some .Partial, .Full => true
  | some .Full, .Full => true
  | some _, .Deleting => true
  | _, _ => false

variable (faults : Faults)

/-- `SetStatus`; `none` is an error. -/
def setStatus (s : BitswapState) (key : Root) (value : RootBlockStatus) : Option BitswapState :=
  if faults.setStatus ∨ isStatusTransitionAllowed (s.statuses key) value = false then none
  else some { s with statuses := Function.update s.statuses key (some value) }

variable (s : BitswapState)

def sendResourceUpdate (type : ResourceUpdateType) (root : Root) : BitswapState :=
  { s with resourceUpdates := (type, root) :: s.resourceUpdates }

/-- The bytes of a stored block, unless it is not there or the storage fails. -/
def viewBlock (s : BitswapState) (key : Cid) : Option Bytes :=
  if faults.view key then none else s.storage key

def storeDownloadedBlock (s : BitswapState) (block : Block) : BitswapState :=
  if faults.store then s else { s with storage := Function.update s.storage block.cid (some block.rawData) }

def requestBlocks (session : SessionId) (keys : List Cid) : BitswapState :=
  { s with requests := keys.map (fun key => (session, key)) ++ s.requests }

/-- Forget a root: its state, what is pending for it alone, and the requests of its session. -/
def clearRootDownloadState (root : Root) : BitswapState :=
  match s.rootDownloadStates[root]? with
  | none => s
  | some state =>
    { s with
      rootDownloadStates := s.rootDownloadStates.erase root
      nodeDownloadParams := state.allDescendants.toList.foldl (fun np c => np.clear c root) s.nodeDownloadParams
      requests := s.requests.filter fun request => request.1 ≠ state.session }

/-! ### One block -/

/-- What the check of a block for one root finds: the schema of the tree, the indices up to the first that
the block does not fit, and whether there is such an index. -/
structure RootCheck where
  schema : Option BitswapBlockSchema
  wellFormed : List NodeIndex
  malformed : Bool

variable (cfg : BitswapConfig)

/-- The length of the data of the tree, from its root block; `none` is a malformed one. -/
def readRootLength (tag : BitswapDataTag) (fullBlockData : Bytes) : Option Nat :=
  match extractLengthFromRootBlockData fullBlockData with
  | none => none
  | some (blockData, dataLen) =>
    match blockData.head? with
    | none => none
    | some tag' =>
      if tag' ≠ tag then none
      else
        match cfg.dataConfig tag with
        | none => none
        | some dataConf => if dataConf.maxSize < (dataLen : Int) - 1 then none else some dataLen

/-- A block of this size and number of links can stand at an index. -/
def fitsAt (schema : BitswapBlockSchema) (size numLinks : Nat) (ix : NodeIndex) : Bool :=
  decide ((size : Int) = schema.blockSize ix) && decide (numLinks = schema.linkCount ix)

def checkIndices (schema : BitswapBlockSchema) (size numLinks : Nat) (ixs : List NodeIndex) : RootCheck :=
  { schema := some schema
    wellFormed := ixs.takeWhile (fitsAt schema size numLinks)
    malformed := !ixs.all (fitsAt schema size numLinks) }

def checkRoot (size numLinks : Nat) (fullBlockData : Bytes) (rp : RootDownloadState)
    (ixs : List NodeIndex) : RootCheck :=
  if (0 : NodeIndex) ∈ ixs then
    match readRootLength cfg rp.tag fullBlockData with
    | none => { schema := rp.schema, wellFormed := [], malformed := true }
    | some dataLen =>
      checkIndices (mkBitswapBlockSchemaLengthPrefixed cfg.maxBlockSize dataLen) size numLinks ixs
  else
    match rp.schema with
    | none => { schema := none, wellFormed := [], malformed := false }
    | some schema => checkIndices schema size numLinks ixs

/-- The links of a block become children of an index in the tree of a root. -/
def addChildren (di : DepthIndices) (links : List BitswapBlockLink) (root : Root)
    (children : NestedMap BitswapBlockLink Root NodeIndex) (ix : NodeIndex) : NestedMap BitswapBlockLink Root NodeIndex :=
  links.zipIdx.foldl (fun children l => children.append l.1 root [di.firstChildId ix + (l.2 : Int)]) children

variable (params : ExtTreeMap Root (List NodeIndex))

/-- The children of a block, in the trees of the roots that it is pending for. -/
def childrenOf (check : Root → List NodeIndex → RootCheck)
    (links : List BitswapBlockLink) : NestedMap BitswapBlockLink Root NodeIndex :=
  params.toList.foldl
    (fun children p => (check p.1 p.2).wellFormed.foldl (addChildren cfg.depthIndices links p.1) children) ∅

/-- What a small step returns, with the schemas that it sets. -/
structure StepResult where
  newParams : NestedMap BitswapBlockLink Root NodeIndex
  malformed : List Root
  schema : Root → RootDownloadState → List NodeIndex → Option BitswapBlockSchema

/-- The check of a block for a root; a root without a state is skipped. -/
def checkFor (states : ExtTreeMap Root RootDownloadState) (size numLinks : Nat)
    (fullBlockData : Bytes) (root : Root) (ixs : List NodeIndex) : RootCheck :=
  match states[root]? with
  | none => { schema := none, wellFormed := [], malformed := false }
  | some rp => checkRoot cfg size numLinks fullBlockData rp ixs

def processDownloadedBlockStep (block : Block) (states : ExtTreeMap Root RootDownloadState) : StepResult :=
  match readBitswapBlock block.rawData with
  | none => { newParams := ∅, malformed := params.toList.map Prod.fst, schema := fun _ rp _ => rp.schema }
  | some (links, fullBlockData) =>
    let check := checkFor cfg states block.rawData.length links.length fullBlockData
    { newParams := childrenOf cfg params check links
      malformed := (params.toList.filter fun p => (check p.1 p.2).malformed).map Prod.fst
      schema := fun root _ ixs => (check root ixs).schema }

/-! ### The big step -/

/-- The indices of a block leave the counter of a root, and its schema is set. -/
def countDownRoot (result : StepResult) (root : Root) (rootState : RootDownloadState) : RootDownloadState :=
  match params[root]? with
  | none => rootState
  | some ixs =>
    { rootState with
      remainingNodeCounter := rootState.remainingNodeCounter - ixs.length
      schema := result.schema root rootState ixs }

def countDown (result : StepResult) (states : ExtTreeMap Root RootDownloadState) : ExtTreeMap Root RootDownloadState :=
  states.map (countDownRoot params result)

/-- Malformed roots are cleared and reported. -/
def reportBroken (root : Root) : BitswapState :=
  sendResourceUpdate (clearRootDownloadState s root) .broken root

/-- What the loop over the children updates. -/
structure ChildLoop where
  bs : BitswapState
  blocksToProcess : List Block
  toDownload : List Cid
  someRootState : Option SessionId

/-- File the indices of a child in the tree of one root. -/
def addPending (childId : Cid) (l : ChildLoop) (root : Root) (ixs : List NodeIndex) : ChildLoop :=
  let np := l.bs.nodeDownloadParams.append childId root ixs
  match l.bs.rootDownloadStates[root]? with
  | none => { l with bs := { l.bs with nodeDownloadParams := np } }
  | some rootState =>
    { l with
      someRootState := some rootState.session
      bs := { l.bs with
        nodeDownloadParams := np
        rootDownloadStates := l.bs.rootDownloadStates.insert root
          { rootState with
            allDescendants := rootState.allDescendants.insert childId
            remainingNodeCounter := rootState.remainingNodeCounter + ixs.length } } }

/-- File a child for all its roots, and see whether it is stored. -/
def addChild (newParams : NestedMap BitswapBlockLink Root NodeIndex) (roots : List Root)
    (l : ChildLoop) (link : BitswapBlockLink) : ChildLoop :=
  let ps := roots.filterMap fun root => (newParams.lookup link root).map fun ixs => (root, ixs)
  let l := ps.foldl (fun l p => addPending link l p.1 p.2) l
  match viewBlock faults l.bs link with
  | some bytes => { l with blocksToProcess := l.blocksToProcess ++ [{ cid := link, rawData := bytes }] }
  | none => { l with toDownload := l.toDownload ++ [link] }

/-- Request the children that are not stored. -/
def requestChildren (l : ChildLoop) : Option BitswapState :=
  if l.toDownload = [] then some l.bs
  else
    match l.someRootState with
    | none => none
    | some session => some (if faults.request then l.bs else requestBlocks l.bs session l.toDownload)

/-- A root with nothing left to download is done. -/
def reportAdded (s : BitswapState) (root : Root) : BitswapState :=
  match s.rootDownloadStates[root]? with
  | none => s
  | some rootState =>
    if rootState.remainingNodeCounter = 0 then
      let s := (setStatus faults s root .Full).getD s
      sendResourceUpdate (clearRootDownloadState s root) .added root
    else s

/-- The indices that a block is pending for are taken out. -/
def takeIndices (id : Cid) (oldPs : ExtTreeMap Root (List NodeIndex)) (result : StepResult) : BitswapState :=
  { s with
    nodeDownloadParams := s.nodeDownloadParams.erase id
    rootDownloadStates := countDown oldPs result s.rootDownloadStates }

/-- The block is checked for its roots, and those it is malformed for are cleared. -/
def checkBlock (s : BitswapState) (block : Block) (oldPs : ExtTreeMap Root (List NodeIndex)) : BitswapState :=
  let result := processDownloadedBlockStep cfg oldPs block s.rootDownloadStates
  result.malformed.foldl reportBroken (takeIndices s block.cid oldPs result)

/-- The loop over the children of a block that was pending. -/
def childLoop (order : MapOrder) (faults : Faults) (block : Block) (s : BitswapState)
    (oldPs : ExtTreeMap Root (List NodeIndex)) : ChildLoop :=
  let newParams := (processDownloadedBlockStep cfg oldPs block s.rootDownloadStates).newParams
  order.links.foldl (addChild faults newParams order.roots)
    { bs := checkBlock cfg s block oldPs, blocksToProcess := [], toDownload := [], someRootState := none }

/-- Process a block that was pending. -/
def processPending (order : MapOrder) (faults : Faults) (block : Block) (s : BitswapState)
    (oldPs : ExtTreeMap Root (List NodeIndex)) : Option (BitswapState × List Block) :=
  let l := childLoop cfg order faults block s oldPs
  (requestChildren faults l).map fun s =>
    ((oldPs.toList.map Prod.fst).foldl (reportAdded faults) s, l.blocksToProcess)

/-- Process a block, and return the state with the stored blocks to process next. -/
def processDownloadedBlock (order : MapOrder) (faults : Faults) (block : Block)
    (s : BitswapState) : Option (BitswapState × List Block) :=
  let s := storeDownloadedBlock faults s block
  match s.nodeDownloadParams[block.cid]? with
  | none => some (s, [])
  | some oldPs => processPending cfg order faults block s oldPs

/-! ### Commands -/

/-- A download starts with a state for the root, its block pending at index 0. -/
def startDownload (root : Root) (tag : BitswapDataTag) : BitswapState :=
  { s with
    nextSession := s.nextSession + 1
    nodeDownloadParams := s.nodeDownloadParams.append root root [0]
    rootDownloadStates := s.rootDownloadStates.insert root
      { allDescendants := (∅ : ExtTreeSet Cid).insert root
        session := s.nextSession
        schema := none
        tag
        remainingNodeCounter := 1 } }

/-- Start the download of a root, and return the root block where it is stored. -/
def kickStartRootDownload (root : Root) (tag : BitswapDataTag) (s : BitswapState) : BitswapState × List Block :=
  if root ∈ s.nodeDownloadParams then (s, [])
  else
    match setStatus faults s root .Partial with
    | none =>
      if s.statuses root = some .Full then (sendResourceUpdate s .added root, []) else (s, [])
    | some s =>
      let session := s.nextSession
      let s := startDownload s root tag
      if faults.view root then (clearRootDownloadState s root, [])
      else
        match s.storage root with
        | some bytes =>
          ({ s with deadlines := (root, session) :: s.deadlines }, [{ cid := root, rawData := bytes }])
        | none =>
          if faults.request then (clearRootDownloadState s root, [])
          else ({ requestBlocks s session [root] with deadlines := (root, session) :: s.deadlines }, [])

/-- Delete a root, with its block and the blocks that it links. -/
def deleteRoot (s : BitswapState) (root : Root) : BitswapState :=
  match setStatus faults s root .Deleting with
  | none => s
  | some s =>
    let s := clearRootDownloadState s root
    let descendants : Option (List BitswapBlockLink) :=
      match s.storage root with
      | none => some []
      | some bytes => (readBitswapBlock bytes).map Prod.fst
    match descendants with
    | none => s
    | some links =>
      if faults.view root ∨ faults.deleteBlocks then s
      else
        let storage := fun key => if key = root ∨ key ∈ links then none else s.storage key
        if faults.deleteStatus then { s with storage }
        else
          sendResourceUpdate { s with storage, statuses := Function.update s.statuses root none } .removed root

/-! ### Runs -/

/-- The downloader between two steps: its state, and the stored blocks to process before anything else. -/
structure Machine where
  bs : BitswapState
  work : List Block

inductive Event where
  | download (root : Root) (tag : BitswapDataTag) (faults : Faults)
  | arrive (block : Block) (order : MapOrder) (faults : Faults)
  | resume (order : MapOrder) (faults : Faults)
  | deadline (root : Root) (session : SessionId)
  | delete (root : Root) (faults : Faults)

/-- An arrival answers the requests for the block. -/
def answerRequests (cid : Cid) : BitswapState :=
  { s with requests := s.requests.filter fun request => request.2 ≠ cid }

/-- The state after an event; `none` is a panic. -/
def step (cfg : BitswapConfig) (m : Machine) : Event → Option Machine
  | .download root tag faults =>
    let r := kickStartRootDownload faults root tag m.bs
    some { bs := r.1, work := r.2 ++ m.work }
  | .arrive block order faults =>
    (processDownloadedBlock cfg order faults block (answerRequests m.bs block.cid)).map fun r =>
      { bs := r.1, work := r.2 ++ m.work }
  | .resume order faults =>
    match m.work with
    | [] => some m
    | block :: work =>
      (processDownloadedBlock cfg order faults block m.bs).map fun r => { bs := r.1, work := r.2 ++ work }
  | .deadline root session =>
    some { m with bs := clearRootDownloadState { m.bs with deadlines := m.bs.deadlines.erase (root, session) } root }
  | .delete root faults => some { m with bs := deleteRoot faults m.bs root }

end MinaProtocol.Bitswap
