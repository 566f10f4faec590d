import Mathlib.Data.UInt
import ZalemCoin.Chain.Primitives

/-!
# Payment winners

For every height, the nodes elect a masternode that the block at that height has to pay. Winners are
announced in messages. A node takes an announcement when it is new, in the range of heights around
its best block, and signed; the announcements that it has seen are known by a hash of the height and
of the transaction that the masternode holds its collateral in. Between two winners of a height, the
one with the higher score stays. The holder of the payments key announces a winner of its own when a
block has been connected.
-/

namespace ZalemCoin.Payments

open Chain

structure CFloatingcityPaymentWinner where
  nBlockHeight : ℤ
  vin : CTxIn
  payee : CScript
  vchSig : List UInt8
  score : UInt64
deriving DecidableEq

def CFloatingcityPaymentWinner.empty : CFloatingcityPaymentWinner :=
  ⟨0, ⟨COutPoint.null, [], 0xffffffff⟩, [], [], 0⟩

/-- A masternode, as the manager has it after `Check`. -/
structure CFloatingcity where
  vin : CTxIn
  IsEnabled : Bool
  protocolVersion : ℕ
  GetFloatingcityInputAge : ℤ
  SecondsSincePayment : ℤ
  donationPercentage : ℕ
  donationAddress : CScript
  /-- `GetScriptForDestination(pubkey.GetID())`. -/
  pubkeyScript : CScript

abbrev Message := CTxIn × ℤ × CScript

/-- What the nodes have in common: the hash functions, the signatures, the best chain, and the list
of masternodes. -/
structure Context where
  hashHeight : ℤ → UInt256
  hashHash : UInt256 → UInt256
  /-- `VerifyMessage` with `strMainPubKey`. -/
  verifyMessage : List UInt8 → Message → Bool
  /-- `SignMessage` with `strMasterPrivKey`, verified with the key itself. -/
  signMessage : Message → Option (List UInt8)
  /-- The hashes of the blocks of the best chain, from the genesis block on. Without a block,
  `pindexBest` is null. -/
  chain : List UInt256
  /-- `IsBlockchainSynced()`. -/
  synced : Bool
  vFloatingcities : List CFloatingcity
  /-- `GetMinFloatingcityPaymentsProto()`. -/
  minProto : ℕ

/-- The state of the payments of a node. -/
structure State where
  vWinning : List CFloatingcityPaymentWinner
  enabled : Bool
  nLastBlockHeight : ℤ
  mapSeenFloatingcityVotes : UInt256 → Option CFloatingcityPaymentWinner
  mapCacheBlockHashes : ℤ → Option UInt256

variable (ctx : Context)

def Context.bestHeight : ℤ := ctx.chain.length - 1

def distance (a b : UInt256) : UInt256 := if b < a then a - b else b - a

/-! ## Block hashes -/

/-- What the loop of `GetBlockHash` finds: the hash of the block before a height, and that of the
best block for heights that are not positive. The genesis block is never found. -/
def findBlockHash (nBlockHeight : ℤ) : Option UInt256 :=
  if ctx.bestHeight = 0 ∨ ctx.bestHeight + 1 < nBlockHeight then none
  else
    let nBlocksAgo := if 0 < nBlockHeight then ctx.bestHeight + 1 - nBlockHeight else 0
    if 0 < ctx.bestHeight - nBlocksAgo then ctx.chain[(ctx.bestHeight - nBlocksAgo).toNat]? else none

def resolveHeight (nBlockHeight : ℤ) : ℤ :=
  if nBlockHeight = 0 then ctx.bestHeight else nBlockHeight

def GetBlockHash (nBlockHeight : ℤ) (s : State) : Option UInt256 × State :=
  if ctx.chain = [] then (none, s)
  else
    let nBlockHeight := resolveHeight ctx nBlockHeight
    match s.mapCacheBlockHashes nBlockHeight with
    | some hash => (some hash, s)
    | none =>
      match findBlockHash ctx nBlockHeight with
      | none => (none, s)
      | some hash =>
        (some hash,
          { s with
            mapCacheBlockHashes := Function.update s.mapCacheBlockHashes nBlockHeight hash })

/-! ## Winners -/

def CFloatingcityPaymentWinner.GetHash (winner : CFloatingcityPaymentWinner) :
    UInt256 :=
  distance winner.vin.prevout.hash (ctx.hashHeight winner.nBlockHeight)

def CalculateScore (blockHash : UInt256) (vin : CTxIn) : UInt64 :=
  let n2 := ctx.hashHash blockHash
  let n3 := ctx.hashHash vin.prevout.hash
  UInt64.ofNat (distance n3 n2).toNat

def CFloatingcityPaymentWinner.message (winner : CFloatingcityPaymentWinner) : Message :=
  (winner.vin, winner.nBlockHeight, winner.payee)

/-- Whether an announcement is signed. -/
def CheckSignature (winner : CFloatingcityPaymentWinner) : Bool :=
  ctx.verifyMessage winner.vchSig winner.message

/-- Records an announcement, unless one with its hash has been recorded. -/
def State.insertSeen (s : State) (winner : CFloatingcityPaymentWinner) : State :=
  match s.mapSeenFloatingcityVotes (winner.GetHash ctx) with
  | some _ => s
  | none =>
    { s with
      mapSeenFloatingcityVotes :=
        Function.update s.mapSeenFloatingcityVotes (winner.GetHash ctx) winner }

/-- The list with the first winner of the same height and a lower score replaced, if there is
one. -/
def replaceWinner (winnerIn : CFloatingcityPaymentWinner) :
    List CFloatingcityPaymentWinner → Option (List CFloatingcityPaymentWinner)
  | [] => none
  | winner :: rest =>
    if winner.nBlockHeight = winnerIn.nBlockHeight ∧ winner.score < winnerIn.score then
      some ({ winner with
        score := winnerIn.score
        vin := winnerIn.vin
        payee := winnerIn.payee
        vchSig := winnerIn.vchSig } :: rest)
    else (replaceWinner winnerIn rest).map (winner :: ·)

/-- Enters a winner, unless there is one with its height and no lower score. -/
def AddWinningFloatingcity (winnerIn : CFloatingcityPaymentWinner) (s : State) :
    Bool × State :=
  match GetBlockHash ctx (winnerIn.nBlockHeight - 576) s with
  | (none, s) => (false, s)
  | (some blockHash, s) =>
    let winnerIn := { winnerIn with score := CalculateScore ctx blockHash winnerIn.vin }
    match replaceWinner winnerIn s.vWinning with
    | some vWinning => (true, { s with vWinning := vWinning }.insertSeen ctx winnerIn)
    | none =>
      if s.vWinning.any fun winner => winner.nBlockHeight == winnerIn.nBlockHeight then (false, s)
      else (true, { s with vWinning := s.vWinning ++ [winnerIn] }.insertSeen ctx winnerIn)

def GetBlockPayee (s : State) (nBlockHeight : ℤ) : Option (CScript × CTxIn) :=
  (s.vWinning.find? fun winner => winner.nBlockHeight == nBlockHeight).map fun winner =>
    (winner.payee, winner.vin)

/-! ## What a node does -/

/-- Whether an announcement that is new is taken. -/
def accepts (winner : CFloatingcityPaymentWinner) : Bool :=
  decide (¬(winner.nBlockHeight < ctx.bestHeight - 10 ∨ winner.nBlockHeight > ctx.bestHeight + 20)) &&
    winner.vin.nSequence == 0xffffffff && CheckSignature ctx winner

/-- The message `mnw`. -/
def processMnw (winner : CFloatingcityPaymentWinner) (s : State) : State :=
  if ctx.synced = false ∨ ctx.chain = [] then s
  else if (s.mapSeenFloatingcityVotes (winner.GetHash ctx)).isSome then s
  else if accepts ctx winner = false then s
  else (AddWinningFloatingcity ctx winner (s.insertSeen ctx winner)).2

def CountEnabled : ℕ :=
  ctx.vFloatingcities.countP fun mn => decide (ctx.minProto ≤ mn.protocolVersion) && mn.IsEnabled

def lastPayments (vWinning : List CFloatingcityPaymentWinner) (nMinimumAge : ℕ) : List CTxIn :=
  (vWinning.reverse.take (nMinimumAge + 1)).map CFloatingcityPaymentWinner.vin

/-- The masternode that was not paid for the longest time, among those that are old enough and not
in a list. -/
def FindOldestNotInVec (vVins : List CTxIn) (nMinimumAge : ℕ) :
    Option CFloatingcity :=
  ctx.vFloatingcities.foldl
    (fun oldest mn =>
      if !mn.IsEnabled || decide (mn.GetFloatingcityInputAge < (nMinimumAge : ℤ)) ||
          vVins.any fun vin => mn.vin.prevout == vin.prevout then oldest
      else
        match oldest with
        | none => some mn
        | some old => if old.SecondsSincePayment < mn.SecondsSincePayment then some mn else some old)
    none

def Find (vin : CTxIn) : Option CFloatingcity :=
  ctx.vFloatingcities.find? fun mn => mn.vin.prevout == vin.prevout

/-- The winner that a masternode makes. The second argument is the word of which the two low bytes
are those of a block hash. -/
def winnerOf (nBlockHeight : ℤ) (nHash : ℕ) (mn : CFloatingcity) : CFloatingcityPaymentWinner :=
  { CFloatingcityPaymentWinner.empty with
    nBlockHeight := nBlockHeight
    vin := mn.vin
    payee :=
      if 0 < mn.donationPercentage ∧ nHash % 100 ≤ mn.donationPercentage then mn.donationAddress
      else mn.pubkeyScript }

def chooseWinner (nBlockHeight : ℤ) (nHash : ℕ) (s : State) :
    CFloatingcityPaymentWinner :=
  let nMinimumAge := CountEnabled ctx
  let vecLastPayments := lastPayments s.vWinning nMinimumAge
  let oldest := (FindOldestNotInVec ctx vecLastPayments nMinimumAge).elim
    CFloatingcityPaymentWinner.empty (winnerOf nBlockHeight nHash)
  if oldest.nBlockHeight = 0 ∧ 0 < nMinimumAge then
    -- The first active masternode, counting back from the end of the list.
    (vecLastPayments.reverse.findSome? fun vin =>
      (Find ctx vin).filter CFloatingcity.IsEnabled).elim oldest (winnerOf nBlockHeight nHash)
  else oldest

/-- Announces a winner for a height, on the node that has the payments key. Only the two low bytes
of `nHash` are set; the third argument is what the others hold. -/
def ProcessBlock (nBlockHeight : ℤ) (stack : ℕ) (s : State) : Bool × State :=
  if nBlockHeight ≤ s.nLastBlockHeight then (false, s)
  else if s.enabled = false then (false, s)
  else
    match GetBlockHash ctx (nBlockHeight - 10) s with
    | (none, s) => (false, s)
    | (some hash, s) =>
      let newWinner := chooseWinner ctx nBlockHeight (stack * 2 ^ 16 + hash.toNat % 2 ^ 16) s
      if newWinner.nBlockHeight = 0 then (false, s)
      else
        match ctx.signMessage newWinner.message with
        | none => (false, s)
        | some vchSig =>
          match AddWinningFloatingcity ctx { newWinner with vchSig := vchSig } s with
          | (true, s) => (true, { s with nLastBlockHeight := nBlockHeight })
          | (false, s) => (false, s)

/-- Removes one winner that is too old. -/
def CleanPaymentList (s : State) : State :=
  if ctx.chain = [] then s
  else
    let nLimit : ℤ := max ctx.vFloatingcities.length 1000
    { s with
      vWinning := s.vWinning.eraseP fun winner =>
        decide (ctx.bestHeight - winner.nBlockHeight > nLimit) }

/-- What a node calls by itself: one function when a block has been connected, the other from time to
time. -/
inductive LocalCall where
  | processBlock (nBlockHeight : ℤ) (stack : ℕ)
  | cleanPaymentList
deriving DecidableEq

def LocalCall.run (s : State) : LocalCall → State
  | processBlock nBlockHeight stack => (ProcessBlock ctx nBlockHeight stack s).2
  | cleanPaymentList => CleanPaymentList ctx s

/-- What happens at a node: a message arrives, or one of the local calls is made. -/
inductive Event where
  | mnw (winner : CFloatingcityPaymentWinner)
  | localCall (call : LocalCall)
deriving DecidableEq

def Event.run (ctx : Context) (s : State) : Event → State
  | mnw winner => processMnw ctx winner s
  | localCall call => call.run ctx s

def runHistory (s : State) (history : List Event) : State :=
  history.foldl (Event.run ctx) s

end ZalemCoin.Payments
