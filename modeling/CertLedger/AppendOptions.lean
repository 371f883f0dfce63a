import CertLedger.LedgerHandlers
import CertLedger.NdnPackets
import CertLedger.PlainNdn

/-!
# The options of an append session

Client and ledger build their names and packets from the same options: the
client from its own, the ledger from those it reads off a notification. The four
names agree, and the statuses of an acknowledgement come back as they were put in.
-/
namespace CertLedger.AppendOptions
open TlvCodec NdnObjects NdnPackets LedgerIndexCodec LedgerHandlers

def AppenderPrefix : ℕ := 261
def AppenderNonce : ℕ := 262
def AppendStatusCode : ℕ := 252

def InvalidNonce : UInt64 := UInt64.ofNat (2 ^ 64 - 1)

/-- The decoder casts any 64-bit number to a status. -/
abbrev StatusCode := UInt64

def code (status : AppendStatus) : StatusCode := UInt64.ofNat status.toNat

def MAX_RETRIES : ℕ := 3

structure ClientOptions where
  topic : Name
  appenderPrefix : Name
  nonce : UInt64
  nonce2 : UInt64 := 0
  retryCount : ℕ := 0
  fwHint : Name := []
  deriving DecidableEq

/-- An element whose value is a name. -/
def makeNestedBlock (type : ℕ) (n : Name) (hp : 0 < type := by decide)
    (hl : type < 2 ^ 32 := by decide) : Block := ⟨type, nestedName n, hp, hl⟩

/-- The only element of a value. -/
def blockFromValue (b : Block) : Except Error Block :=
  match readBlock b.value with
  | some (block, []) => .ok block
  | _ => .error .tlv

/-- A name from the only element of a value. -/
def nameFromValue (b : Block) : Except Error Name := do
  let block ← blockFromValue b
  parsed (Name.ofBlock block)

theorem nameFromValue_makeNestedBlock (type : ℕ) (n : Name) (hp : 0 < type) (hl : type < 2 ^ 32) :
    nameFromValue (makeNestedBlock type n hp hl) = .ok n := by
  have h : readBlock (makeNestedBlock type n hp hl).value = some (n.wireEncode, []) :=
    readNested_nestedName n
  rw [nameFromValue, blockFromValue, h]
  simp [bind, Except.bind]

/-- Octets of "notify" and of "msg". -/
def notify : Block := Name.generic [110, 111, 116, 105, 102, 121]
def msg : Block := Name.generic [109, 115, 103]

namespace ClientOptions
variable (o : ClientOptions)

/-- Says whether the retries are used up, and counts this call. -/
def exhaustRetries : Bool × ClientOptions :=
  (MAX_RETRIES < o.retryCount, { o with retryCount := o.retryCount + 1 })

def setNonce2 (nonce2 : UInt64) : ClientOptions := { o with nonce2 := nonce2 }

/-- The elements of the parameters of a notification. -/
def parameters : List Block :=
  [makeNestedBlock AppenderPrefix o.appenderPrefix] ++
    (if o.fwHint = [] then [] else [makeNestedBlock tlvForwardingHint o.fwHint]) ++
    [⟨AppenderNonce, nonNegativeInteger o.nonce.toNat, by decide, by decide⟩]

def makeNotification [NdnCxx] : Option Interest := do
  let notification ← Interest.ofName (o.topic ++ [notify])
  return notification.setApplicationParameters
    ⟨tlvApplicationParameters, wireAll o.parameters, by decide, by decide⟩

/-- The name the client listens to. -/
def makeInterestFilter : Name := o.appenderPrefix ++ [msg] ++ o.topic ++ [fromNumber o.nonce]

def submissionName : Name :=
  o.appenderPrefix ++ [msg] ++ o.topic ++ [fromNumber o.nonce] ++ [fromNumber o.nonce2]

def makeSubmission [NdnCxx] (dataList : List Data) : Packet :=
  .ofElements o.submissionName (dataList.map (·.wire))

end ClientOptions

/-- One turn of the loop over the elements of an acknowledgement. -/
def readStatus (statusList : List StatusCode) (item : Block) : Except Error (List StatusCode) :=
  if item.type = AppendStatusCode then do
    let n ← parsed (readNonNegativeInteger item.value)
    return statusList ++ [UInt64.ofNat n]
  else if isCriticalType item.type then throw (.unrecognizedType item.type)
  else return statusList

def praseAck (data : Packet) : Except Error (List StatusCode) := do
  let items ← parsed data.content.elements
  items.foldlM readStatus []

/-! ## The ledger's side -/

/-- One turn of the loop over the parameters of a notification. -/
def readParameter (client : ClientOptions) (item : Block) : Except Error ClientOptions :=
  if item.type = AppenderPrefix then do
    let n ← nameFromValue item
    return { client with appenderPrefix := n }
  else if item.type = tlvForwardingHint then do
    let n ← nameFromValue item
    return { client with fwHint := n }
  else if item.type = AppenderNonce then do
    let n ← parsed (readNonNegativeInteger item.value)
    return { client with nonce := UInt64.ofNat n }
  else if isCriticalType item.type then throw (.unrecognizedType item.type)
  else return client

/-- Missing parameters have no elements. -/
def praseNotification (topic : Name) (notification : Interest) : Except Error ClientOptions := do
  let items ← match notification.applicationParameters with
    | some params => parsed params.elements
    | none => pure []
  items.foldlM readParameter { topic := topic, appenderPrefix := [], nonce := InvalidNonce }

/-- The name of a fetch, from the ledger's topic. -/
def fetcherName (topic : Name) (client : ClientOptions) : Name :=
  client.appenderPrefix ++ [msg] ++ topic ++ [fromNumber client.nonce] ++ [fromNumber client.nonce2]

/-- The fetch with a random second nonce, and the options that remember it. The
options are changed also where the name makes no Interest. -/
def makeFetcher (topic : Name) (random : UInt64) (client : ClientOptions) :
    Option Interest × ClientOptions :=
  let client := client.setNonce2 random
  ((Interest.ofName (fetcherName topic client)).map fun fetcher =>
    if client.fwHint = [] then fetcher else { fetcher with forwardingHint := [client.fwHint] },
    client)

def statusBlock (status : StatusCode) : Block :=
  ⟨AppendStatusCode, nonNegativeInteger status.toNat, by decide, by decide⟩

def makeNotificationAck [NdnCxx] (client : ClientOptions) (statusList : List StatusCode) :
    Option Packet := do
  let notification ← client.makeNotification
  return .ofElements notification.name (statusList.map statusBlock)

/-! ## Statuses -/

theorem readStatus_statusBlock (statusList : List StatusCode) (status : StatusCode) :
    readStatus statusList (statusBlock status) = .ok (statusList ++ [status]) := by
  have ht : (statusBlock status).type = AppendStatusCode := rfl
  have hv : readNonNegativeInteger (statusBlock status).value = some status.toNat :=
    readNonNegativeInteger_of_lt status.toNat_lt
  rw [readStatus, if_pos ht, hv]
  simp [bind, Except.bind, pure, Except.pure]

theorem foldlM_readStatus (statusList done : List StatusCode) :
    (statusList.map statusBlock).foldlM readStatus done = .ok (done ++ statusList) := by
  induction statusList generalizing done with
  | nil => simp [pure, Except.pure]
  | cons status statusList ih =>
      rw [List.map_cons, List.foldlM_cons, readStatus_statusBlock]
      simp only [bind, Except.bind, ih]
      rw [List.append_assoc, List.singleton_append]

/-- The client reads the statuses that the ledger has put in. -/
theorem praseAck_ofElements (n : Name) (statusList : List StatusCode) :
    praseAck (.ofElements n (statusList.map statusBlock)) = .ok statusList := by
  rw [praseAck, Packet.elements_ofElements, parsed_some]
  simp only [bind, Except.bind, foldlM_readStatus, List.nil_append]

/-! ## Names -/

theorem type_makeNestedBlock (type : ℕ) (n : Name) (hp : 0 < type) (hl : type < 2 ^ 32) :
    (makeNestedBlock type n hp hl).type = type := rfl

section
variable (client : ClientOptions)

theorem readParameter_prefix (n : Name) (hp : 0 < AppenderPrefix) (hl : AppenderPrefix < 2 ^ 32) :
    readParameter client (makeNestedBlock AppenderPrefix n hp hl) =
      .ok { client with appenderPrefix := n } := by
  rw [readParameter, type_makeNestedBlock, if_pos rfl, nameFromValue_makeNestedBlock]
  rfl

theorem readParameter_fwHint (n : Name) (hp : 0 < tlvForwardingHint)
    (hl : tlvForwardingHint < 2 ^ 32) :
    readParameter client (makeNestedBlock tlvForwardingHint n hp hl) =
      .ok { client with fwHint := n } := by
  rw [readParameter, type_makeNestedBlock, if_neg (by decide), if_pos rfl,
    nameFromValue_makeNestedBlock]
  rfl

theorem readParameter_nonce (nonce : UInt64) (hp : 0 < AppenderNonce)
    (hl : AppenderNonce < 2 ^ 32) :
    readParameter client ⟨AppenderNonce, nonNegativeInteger nonce.toNat, hp, hl⟩ =
      .ok { client with nonce := nonce } := by
  dsimp only [readParameter]
  rw [if_neg (by decide), if_neg (by decide), if_pos rfl,
    readNonNegativeInteger_of_lt nonce.toNat_lt]
  simp [bind, Except.bind, pure, Except.pure]

end

theorem foldlM_parameters (o client : ClientOptions) :
    o.parameters.foldlM readParameter client = .ok { client with
      appenderPrefix := o.appenderPrefix
      nonce := o.nonce
      fwHint := if o.fwHint = [] then client.fwHint else o.fwHint } := by
  unfold ClientOptions.parameters
  split_ifs
  · simp only [List.append_nil, List.cons_append, List.nil_append, List.foldlM_cons,
      List.foldlM_nil, readParameter_prefix, readParameter_nonce, bind, Except.bind, pure,
      Except.pure]
  · simp only [List.cons_append, List.nil_append, List.foldlM_cons,
      List.foldlM_nil, readParameter_prefix, readParameter_fwHint, readParameter_nonce, bind,
      Except.bind, pure, Except.pure]

theorem name_makeFetcher {topic : Name} {random : UInt64} {client : ClientOptions}
    {fetcher : Interest} (h : (makeFetcher topic random client).1 = some fetcher) :
    fetcher.name = fetcherName topic (client.setNonce2 random) := by
  obtain ⟨i, hi, rfl⟩ := Option.map_eq_some_iff.mp h
  rw [Interest.name_ofName hi]
  dsimp only
  split_ifs <;> rfl

section
variable [NdnCxx]

/-- The ledger restores what the client has told about itself. -/
theorem praseNotification_makeNotification {o : ClientOptions} {notification : Interest}
    (h : o.makeNotification = some notification) (topic : Name) :
    praseNotification topic notification = .ok
      { topic := topic, appenderPrefix := o.appenderPrefix, nonce := o.nonce, fwHint := o.fwHint } := by
  obtain ⟨i, -, hi⟩ := Option.bind_eq_some_iff.mp h
  obtain rfl := Option.some.inj hi
  have he : (⟨tlvApplicationParameters, wireAll o.parameters, by decide, by decide⟩ : Block).elements =
      some o.parameters := Block.elements_wireAll rfl
  simp only [praseNotification, Interest.setApplicationParameters, he, parsed_some, bind, Except.bind,
    foldlM_parameters]
  split_ifs with hf
  · rw [hf]
  · rfl

/-- A notification depends on the parameters and the topic alone. -/
theorem makeNotification_congr {o p : ClientOptions} (ht : o.topic = p.topic)
    (ha : o.appenderPrefix = p.appenderPrefix) (hn : o.nonce = p.nonce) (hf : o.fwHint = p.fwHint) :
    o.makeNotification = p.makeNotification := by
  simp only [ClientOptions.makeNotification, ClientOptions.parameters, ht, ha, hn, hf]

theorem name_makeNotificationAck {client : ClientOptions} {notification : Interest}
    (h : client.makeNotification = some notification) (statusList : List StatusCode) :
    makeNotificationAck client statusList =
      some (.ofElements notification.name (statusList.map statusBlock)) := by
  rw [makeNotificationAck, h]
  rfl

theorem praseAck_makeNotificationAck {client : ClientOptions}
    {statusList : List StatusCode} {ack : Packet}
    (h : makeNotificationAck client statusList = some ack) : praseAck ack = .ok statusList := by
  obtain ⟨notification, -, he⟩ := Option.bind_eq_some_iff.mp h
  rw [← Option.some.inj he, praseAck_ofElements]

/-- Client and ledger build the same names. -/
theorem names_agree (o : ClientOptions) (notification : Interest)
    (h : o.makeNotification = some notification) :
    ∃ client, praseNotification o.topic notification = .ok client ∧
      client.appenderPrefix = o.appenderPrefix ∧ client.nonce = o.nonce ∧
      client.fwHint = o.fwHint ∧
      (∀ statusList, ∃ ack, makeNotificationAck client statusList = some ack ∧
        ack.name = notification.name) ∧
      ∀ nonce2 fetcher, (makeFetcher o.topic nonce2 client).1 = some fetcher →
        o.makeInterestFilter <+: fetcher.name ∧ o.makeInterestFilter ≠ fetcher.name ∧
        ∃ c, getLast fetcher.name 1 = some c ∧ toNumber c = .ok nonce2 ∧
          ∀ dataList, ((o.setNonce2 nonce2).makeSubmission dataList).name = fetcher.name := by
  refine ⟨_, praseNotification_makeNotification h o.topic, rfl, rfl, rfl, ?_, ?_⟩
  · intro statusList
    have hn := (makeNotification_congr rfl rfl rfl rfl).trans h
    exact ⟨_, name_makeNotificationAck hn statusList, rfl⟩
  · intro nonce2 fetcher hf
    have hname := name_makeFetcher hf
    have happend : fetcher.name = o.makeInterestFilter ++ [fromNumber nonce2] := hname
    rw [happend]
    refine ⟨List.prefix_append _ _, ?_, fromNumber nonce2, getLast_append_one _ _,
      toNumber_fromNumber nonce2, fun dataList => rfl⟩
    intro he
    have := congrArg List.length he
    simp at this

end

/-! ## Two sessions -/

section
open PlainNdn

/-- The digests of the parameters of two notifications. -/
def sessionDigests : List (Buffer × Buffer) :=
  [([36, 14, 253, 1, 5, 5, 7, 3, 8, 1, 65, 253, 1, 6, 1, 7],
    [15, 86, 106, 232, 240, 14, 253, 208, 217, 114, 103, 31, 164, 76, 196, 248, 146, 67, 193, 45, 51,
      28, 125, 130, 172, 230, 151, 153, 90, 139, 192, 75]),
    ([36, 14, 253, 1, 5, 5, 7, 3, 8, 1, 65, 253, 1, 6, 1, 8],
    [98, 185, 217, 128, 111, 212, 244, 158, 99, 195, 133, 185, 249, 22, 164, 10, 111, 246, 14, 127,
      75, 237, 37, 19, 159, 117, 161, 233, 78, 5, 66, 200])]

/-- The name "/T". -/
def nameT : Name := [Name.generic [84]]

/-- A session of the client "/A". -/
def sessionOptions (nonce : UInt64) : ClientOptions :=
  { topic := nameT, appenderPrefix := nameA, nonce := nonce }

local instance : NdnCxx := plainNdn sessionDigests

/-- The notification of a session. -/
def sessionNotification (nonce : UInt64) : Interest :=
  ({ name := nameT ++ [notify] } : Interest).setApplicationParameters
    ⟨tlvApplicationParameters, wireAll (sessionOptions nonce).parameters, by decide, by decide⟩

/-- A submitted packet of the client "/A". -/
def sessionData (content : Buffer) : Data :=
  ⟨packet nameA content, nameA, dataName_packet nameA content⟩

theorem names_agree_session :
    ∃ client fetcher, praseNotification nameT (sessionNotification 7) = .ok client ∧
      (makeFetcher nameT 5 client).1 = some fetcher ∧
      (sessionOptions 7).makeInterestFilter <+: fetcher.name ∧
      ∃ ack, makeNotificationAck client [code .SUCCESS] = some ack ∧
        ack.name = (sessionNotification 7).name := by
  obtain ⟨client, hclient, -, -, -, hack, hfetch⟩ :=
    names_agree (sessionOptions 7) (sessionNotification 7) rfl
  have hread := @praseNotification_makeNotification _ (sessionOptions 7) (sessionNotification 7)
    rfl nameT
  obtain rfl := Except.ok.inj (hclient.symm.trans hread)
  exact ⟨_, _, hread, rfl, (hfetch 5 _ rfl).1, hack [code .SUCCESS]⟩

end

end CertLedger.AppendOptions
