import Arkos.Network.Handshake
import Arkos.Rpc.Wire

/-!
# The RPC server

`rpc_handler` stands between the clients and the handlers. It counts the request against the address
it came from, checks the version of the protocol and the token, reads the parameters and hands the
request on. The server and the tasks of the node share the chain; the limiter is the server's own.

A client without the token is cut off from the chain in both directions: what it is told does not
depend on the node, and the node and what others are told do not depend on its requests. There is
one thing they share. The limiter is asked before the token is looked at, so a client behind the
address of an authorised one uses up its requests.

A request whose body is not an envelope is turned down by the framework before the handler runs.

## Main definitions

* `Rpc.authorized`, `Rpc.handle`, `Rpc.rpcHandler`
* `Rpc.Server`, `Rpc.Server.run`, `Rpc.Server.responses` — requests and tasks in any order

## Main results

* `Rpc.rpcHandler_of_not_authorized` — what a client without the token is told and leaves
* `Rpc.unauthorised_isolated`
-/

namespace Arkos

namespace Rpc

/-! ### Requests and responses -/

/-- `RpcServerConfig`, less the CORS origin, which no handler reads. -/
structure RpcServerConfig where
  authToken : Option String

/-- `HeaderMap`: names in lower case, with their values. -/
abbrev HeaderMap := List (String × Bytes)

/-- `HeaderValue::to_str`: a value whose bytes are visible ASCII, blanks or tabs. -/
def toStr (value : Bytes) : Option String :=
  if value.all fun b => (32 ≤ b.toNat && b.toNat < 127) || b.toNat = 9 then
    some (String.ofList (value.map fun b => Char.ofNat b.toNat))
  else none

/-- `str::strip_prefix`. -/
def stripPrefix (pre s : String) : Option String :=
  if pre.toList <+: s.toList then some (String.ofList (s.toList.drop pre.toList.length)) else none

/-- `JsonRpcRequest`. -/
structure JsonRpcRequest where
  jsonrpc : String
  id : Option Json
  method : String
  params : Option Json

/-- `BalanceResponse`, less the balance in floating point. -/
structure BalanceResponse where
  address : String
  balanceArkes : ℕ

/-- `MiningInfoResponse`. -/
structure MiningInfoResponse where
  height : ℕ
  bits : UInt32
  targetHex : String
  difficultyBits : ℕ
  mempoolSize : ℕ
  nextRewardArkes : ℕ

/-- `RpcResult`. -/
inductive RpcResult where
  | blockTemplate (response : BlockTemplateResponse)
  | submitBlock (response : SubmitBlockResponse)
  | balance (response : BalanceResponse)
  | blockCount (height : ℕ)
  | miningInfo (response : MiningInfoResponse)

/-- Why a request is not answered with a result. The handlers never fail, so that the code `-32000`
is not sent. -/
inductive RpcError where
  | rateLimited
  | wrongVersion
  | unauthorized
  | notParsed (error : ParseError)

/-- The code of the error. -/
def RpcError.code : RpcError → ℤ
  | .rateLimited => -32005
  | .wrongVersion => -32600
  | .unauthorized => -32001
  | .notParsed _ => -32601

/-- The text of the error, where `display` is the library's text of a reader's error. -/
def RpcError.message (display : Json.DecodeError → String) : RpcError → String
  | .rateLimited => "rate limit exceeded"
  | .wrongVersion => "jsonrpc must be '2.0'"
  | .unauthorized => "unauthorized"
  | .notParsed (.badParams method error) => "bad params for " ++ method ++ ": " ++ display error
  | .notParsed (.unknownMethod method) => "unknown method '" ++ method ++ "'"

/-- `JsonRpcResponse`, less its constant field. -/
structure JsonRpcResponse where
  id : Option Json
  outcome : Except RpcError RpcResult

/-- The status a response is sent with. -/
def JsonRpcResponse.status (r : JsonRpcResponse) : ℕ :=
  match r.outcome with
  | .error .rateLimited => 429
  | .error .unauthorized => 401
  | _ => 200

/-- A request as it reaches the handler: where it came from, what it carries, and what the clocks
show and the mempool is read in while it is handled. -/
structure Call where
  /-- The address of the client, without its port. -/
  ip : String
  headers : HeaderMap
  envelope : JsonRpcRequest
  /-- The monotonic clock when the request is counted. -/
  received : ℕ
  /-- The wall clock, in seconds. -/
  unix : ℕ
  order : List (String × Transaction)

/-! ### The token -/

/-- `ct_eq_tokens`. -/
def ctEqTokens (a b : String) : Bool := decide (utf8 a = utf8 b)

/-- `authorized`. -/
def authorized (headers : HeaderMap) (expected : Option String) : Bool :=
  match expected with
  | none => true
  | some expected =>
    let bearerOk := (((headers.lookup "authorization").bind toStr).bind (stripPrefix "Bearer ")).map
      (ctEqTokens · expected)
    let headerOk := ((headers.lookup "x-arkos-rpc-token").bind toStr).map (ctEqTokens · expected)
    bearerOk.getD false || headerOk.getD false

/-- The request carries the token. -/
def Call.authorized (config : RpcServerConfig) (call : Call) : Bool :=
  Rpc.authorized call.headers config.authToken

/-! ### The handlers -/

section

variable (C : Crypto)

/-- `get_mining_info`. -/
def getMiningInfo (s : Blockchain) : MiningInfoResponse :=
  let bits := s.tip.header.bits
  let target := bitsToTarget bits
  { height := s.height
    bits
    targetHex := hexEncode target
    difficultyBits := (target.takeWhile fun b => b = 0).length * 8
    mempoolSize := s.mempool.txs.keys.card
    nextRewardArkes := s.cappedBlockReward (s.height + 1) }

/-- `handle`. -/
def handle (now : ℕ) (order : List (String × Transaction)) (s : Blockchain) :
    RpcRequest → RpcResult × Blockchain
  | .getBlockTemplate p => (.blockTemplate (getBlockTemplate C now s order p.walletAddress), s)
  | .submitBlock p =>
    let submitted := submitBlock C now s order p
    (.submitBlock submitted.1, submitted.2)
  | .getBalance p => (.balance ⟨p.address, s.balanceOf p.address⟩, s)
  | .getBlockCount => (.blockCount s.height, s)
  | .getMiningInfo => (.miningInfo (getMiningInfo s), s)

/-- The server and the node it shares the chain with. -/
structure Server where
  node : Node
  /-- `http_rate_limiter`. -/
  httpRateLimiter : RateLimiter 60 60

/-- `router`: the server of a node, before its first request. -/
def Server.new (node : Node) : Server := ⟨node, .new⟩

/-- `rpc_handler`. -/
def rpcHandler (config : RpcServerConfig) (call : Call) (srv : Server) : JsonRpcResponse × Server :=
  let checked := srv.httpRateLimiter.check call.received call.ip
  let srv := { srv with httpRateLimiter := checked.2 }
  if checked.1 = false then (⟨none, .error .rateLimited⟩, srv)
  else if call.envelope.jsonrpc ≠ "2.0" then (⟨call.envelope.id, .error .wrongVersion⟩, srv)
  else if call.authorized config = false then (⟨call.envelope.id, .error .unauthorized⟩, srv)
  else
    match parseRequest call.envelope.method call.envelope.params with
    | .error e => (⟨call.envelope.id, .error (.notParsed e)⟩, srv)
    | .ok req =>
      let handled := handle C call.unix call.order srv.node.chain req
      (⟨call.envelope.id, .ok handled.1⟩, { srv with node.chain := handled.2 })

/-! ### Requests and tasks in any order -/

/-- A request is handled, or a task of the node does something. -/
inductive ServerEvent where
  | rpc (call : Call)
  | task (e : Node.Event)

namespace Server

variable (config : RpcServerConfig)

/-- The state after an event. -/
def step (srv : Server) : ServerEvent → Server
  | .rpc call => (rpcHandler C config call srv).2
  | .task e => { srv with node := srv.node.step C e }

/-- The state after a sequence of events. -/
def run (srv : Server) (evs : List ServerEvent) : Server := evs.foldl (step C config) srv

/-- What the clients are told, in order. -/
def responses : Server → List ServerEvent → List (Call × JsonRpcResponse)
  | _, [] => []
  | srv, .rpc call :: evs =>
    (call, (rpcHandler C config call srv).1) :: responses (srv.step C config (.rpc call)) evs
  | srv, .task e :: evs => responses (srv.step C config (.task e)) evs

end Server

end

/-! ### Clients without the token -/

variable {C : Crypto} {config : RpcServerConfig} {srv srv' : Server} {call : Call}

/-- What a client without the token is told, when the limiter lets it through and when not. -/
def refusal (may : Bool) (call : Call) : JsonRpcResponse :=
  if may = false then ⟨none, .error .rateLimited⟩
  else if call.envelope.jsonrpc ≠ "2.0" then ⟨call.envelope.id, .error .wrongVersion⟩
  else ⟨call.envelope.id, .error .unauthorized⟩

/-- **Without the token** a client is told why it is refused, and the node stays what it is. -/
theorem rpcHandler_of_not_authorized (h : call.authorized config = false) :
    rpcHandler C config call srv =
      (refusal (srv.httpRateLimiter.check call.received call.ip).1 call,
        { srv with httpRateLimiter := (srv.httpRateLimiter.check call.received call.ip).2 }) := by
  rw [rpcHandler, refusal]
  dsimp only
  split
  · rfl
  · split <;> rfl

/-- Every request is counted. -/
theorem httpRateLimiter_rpcHandler :
    (rpcHandler C config call srv).2.httpRateLimiter =
      (srv.httpRateLimiter.check call.received call.ip).2 := by
  rw [rpcHandler]
  dsimp only
  repeat' split
  all_goals rfl

/-- What a client is told and what happens to the node depend on the node and on the answer of the
limiter. -/
theorem rpcHandler_congr (C : Crypto) (config : RpcServerConfig) (hnode : srv.node = srv'.node)
    (hmay : (srv.httpRateLimiter.check call.received call.ip).1 =
      (srv'.httpRateLimiter.check call.received call.ip).1) :
    (rpcHandler C config call srv).1 = (rpcHandler C config call srv').1 ∧
      (rpcHandler C config call srv).2.node = (rpcHandler C config call srv').2.node := by
  rw [rpcHandler, rpcHandler]
  dsimp only
  rw [hmay, hnode]
  repeat' split
  all_goals exact ⟨rfl, rfl⟩

namespace Server

/-- Is it a task or a request with the token? -/
def keeps (config : RpcServerConfig) : ServerEvent → Bool
  | .rpc call => call.authorized config
  | .task _ => true

/-- The requests of a run. -/
def calls (evs : List ServerEvent) : List Call :=
  evs.filterMap fun
    | .rpc call => some call
    | .task _ => none

/-- Two servers with the same node whose limiters have seen the same of the addresses in `shared`.
Both track only addresses in `ips`. -/
structure Alike (ips : Finset String) (shared : String → Prop) (srv srv' : Server) : Prop where
  node_eq : srv.node = srv'.node
  entries_eq : ∀ ip, shared ip → srv.httpRateLimiter.entries ip = srv'.httpRateLimiter.entries ip
  named : ∀ q ∈ srv.httpRateLimiter.windows, q ∈ ips
  named' : ∀ q ∈ srv'.httpRateLimiter.windows, q ∈ ips

/-- There is room for an address that is not tracked. -/
theorem room {ips : Finset String} (hcard : ips.card ≤ maxTrackedPeers) {l : RateLimiter 60 60}
    (hnamed : ∀ q ∈ l.windows, q ∈ ips) {ip : String} (hip : ip ∈ ips) (hnew : ip ∉ l.windows) :
    l.windows.keys.card < maxTrackedPeers := by
  have hsub : insert ip l.windows.keys ⊆ ips :=
    Finset.insert_subset hip fun q hq => hnamed q (Finmap.mem_keys.mp hq)
  have hle := Finset.card_le_card hsub
  rw [Finset.card_insert_of_notMem fun hmem => hnew (Finmap.mem_keys.mp hmem)] at hle
  omega

variable {ips : Finset String} {shared : String → Prop}

/-- A request from an address that is not shared, answered by one of the two alone, changes nothing
that they have in common. -/
theorem Alike.skip (h : Alike ips shared srv srv') (hcard : ips.card ≤ maxTrackedPeers)
    (hip : call.ip ∈ ips) (hauth : call.authorized config = false) (hapart : ¬ shared call.ip) :
    Alike ips shared (srv.step C config (.rpc call)) srv' := by
  have hstep : srv.step C config (.rpc call) = (rpcHandler C config call srv).2 := rfl
  rw [hstep, rpcHandler_of_not_authorized hauth]
  refine ⟨h.node_eq, fun ip hshared => ?_, fun q hq => ?_, h.named'⟩
  · have hne : ip ≠ call.ip := fun heq => hapart (heq ▸ hshared)
    show (srv.httpRateLimiter.check call.received call.ip).2.entries ip = _
    rw [RateLimiter.entries_check_of_ne hne fun hnew => room hcard h.named hip hnew]
    exact h.entries_eq ip hshared
  · rcases RateLimiter.mem_windows_of_check hq with rfl | hq
    · exact hip
    · exact h.named q hq

/-- A request from a shared address is answered alike by both. -/
theorem Alike.rpc (C : Crypto) (config : RpcServerConfig) (h : Alike ips shared srv srv')
    (hcard : ips.card ≤ maxTrackedPeers) (hip : call.ip ∈ ips) (hshared : shared call.ip) :
    (rpcHandler C config call srv).1 = (rpcHandler C config call srv').1 ∧
      Alike ips shared (srv.step C config (.rpc call)) (srv'.step C config (.rpc call)) := by
  have hmay : (srv.httpRateLimiter.check call.received call.ip).1 =
      (srv'.httpRateLimiter.check call.received call.ip).1 := by
    rw [RateLimiter.check_fst, RateLimiter.check_fst, h.entries_eq _ hshared]
    rfl
  obtain ⟨hresponse, hnode⟩ := rpcHandler_congr C config h.node_eq hmay
  refine ⟨hresponse, hnode, fun ip hip' => ?_, fun q hq => ?_, fun q hq => ?_⟩
  · show (rpcHandler C config call srv).2.httpRateLimiter.entries ip =
      (rpcHandler C config call srv').2.httpRateLimiter.entries ip
    rw [httpRateLimiter_rpcHandler, httpRateLimiter_rpcHandler]
    by_cases heq : ip = call.ip
    · rw [heq, RateLimiter.entries_check_self, RateLimiter.entries_check_self, hmay,
        h.entries_eq _ hshared]
      rfl
    · rw [RateLimiter.entries_check_of_ne heq fun hnew => room hcard h.named hip hnew,
        RateLimiter.entries_check_of_ne heq fun hnew => room hcard h.named' hip hnew]
      exact h.entries_eq ip hip'
  · have hq : q ∈ (rpcHandler C config call srv).2.httpRateLimiter.windows := hq
    rw [httpRateLimiter_rpcHandler] at hq
    rcases RateLimiter.mem_windows_of_check hq with rfl | hq
    · exact hip
    · exact h.named q hq
  · have hq : q ∈ (rpcHandler C config call srv').2.httpRateLimiter.windows := hq
    rw [httpRateLimiter_rpcHandler] at hq
    rcases RateLimiter.mem_windows_of_check hq with rfl | hq
    · exact hip
    · exact h.named' q hq

/-- **Leaving the refused requests out.** -/
theorem Alike.run (h : Alike ips shared srv srv') (hcard : ips.card ≤ maxTrackedPeers)
    {evs : List ServerEvent} (hips : ∀ c ∈ calls evs, c.ip ∈ ips)
    (hshared : ∀ c ∈ calls evs, c.authorized config = true → shared c.ip)
    (hapart : ∀ c ∈ calls evs, c.authorized config = false → ¬ shared c.ip) :
    (srv.run C config evs).node = (srv'.run C config (evs.filter (keeps config))).node ∧
      (srv.responses C config evs).filter (fun r => r.1.authorized config) =
        srv'.responses C config (evs.filter (keeps config)) := by
  induction evs generalizing srv srv' with
  | nil => exact ⟨h.node_eq, rfl⟩
  | cons e evs ih =>
    cases e with
    | task e =>
      have hstep : Alike ips shared (srv.step C config (.task e)) (srv'.step C config (.task e)) :=
        ⟨congrArg (Node.step C · e) h.node_eq, h.entries_eq, h.named, h.named'⟩
      exact ih hstep hips hshared hapart
    | rpc call =>
      have hcall : call ∈ calls (.rpc call :: evs) := List.mem_cons_self
      have hcalls : ∀ c ∈ calls evs, c ∈ calls (.rpc call :: evs) := fun c hc =>
        List.mem_cons_of_mem _ hc
      have hrest := fun {srv srv' : Server} (h : Alike ips shared srv srv') =>
        ih h (fun c hc => hips c (hcalls c hc)) (fun c hc => hshared c (hcalls c hc))
          fun c hc => hapart c (hcalls c hc)
      cases hauth : call.authorized config with
      | true =>
        obtain ⟨hresponse, hstep⟩ := h.rpc C config hcard (hips call hcall)
          (hshared call hcall hauth)
        obtain ⟨hnode, hresponses⟩ := hrest hstep
        have hkeep : keeps config (.rpc call) = true := hauth
        rw [List.filter_cons_of_pos hkeep, responses, responses, List.filter_cons, hresponse,
          hresponses]
        exact ⟨hnode, if_pos hauth⟩
      | false =>
        obtain ⟨hnode, hresponses⟩ := hrest (h.skip (C := C) hcard (hips call hcall) hauth
          (hapart call hcall hauth))
        have hdrop : ¬ keeps config (.rpc call) = true := by
          rw [keeps, hauth]
          exact Bool.false_ne_true
        rw [List.filter_cons_of_neg hdrop, responses, List.filter_cons, hresponses]
        exact ⟨hnode, if_neg hdrop⟩

/-- What clients without the token are told does not depend on the node. -/
theorem refusals_eq (srv srv' : Server) (h : srv.httpRateLimiter = srv'.httpRateLimiter)
    (evs : List ServerEvent) :
    (srv.responses C config evs).filter (fun r => !r.1.authorized config) =
      (srv'.responses C config evs).filter fun r => !r.1.authorized config := by
  induction evs generalizing srv srv' with
  | nil => rfl
  | cons e evs ih =>
    cases e with
    | task e => exact ih _ _ h
    | rpc call =>
      have hrest := ih (srv.step C config (.rpc call)) (srv'.step C config (.rpc call)) (by
          show (rpcHandler C config call srv).2.httpRateLimiter =
            (rpcHandler C config call srv').2.httpRateLimiter
          rw [httpRateLimiter_rpcHandler, httpRateLimiter_rpcHandler, h])
      rw [responses, responses, List.filter_cons, List.filter_cons, hrest]
      dsimp only
      cases hauth : call.authorized config with
      | true => rfl
      | false => rw [rpcHandler_of_not_authorized hauth, rpcHandler_of_not_authorized hauth, h]

/-- **Clients without the token are cut off from the chain.** In every run of requests and
tasks with no more addresses than the limiter tracks, in which no request with the token comes
from the address of one without: leaving out the requests without the token changes neither the
node at the end nor what the others are told, and what those clients are told is the same for
every other node. -/
theorem unauthorised_isolated (C : Crypto) (config : RpcServerConfig) (node node' : Node)
    (evs : List ServerEvent) (hcard : ((calls evs).map Call.ip).toFinset.card ≤ maxTrackedPeers)
    (hapart : ∀ c ∈ calls evs, ∀ c' ∈ calls evs, c.authorized config = true →
      c'.authorized config = false → c.ip ≠ c'.ip) :
    ((Server.new node).run C config evs).node =
        ((Server.new node).run C config (evs.filter (keeps config))).node ∧
      ((Server.new node).responses C config evs).filter (fun r => r.1.authorized config) =
        (Server.new node).responses C config (evs.filter (keeps config)) ∧
      ((Server.new node).responses C config evs).filter (fun r => !r.1.authorized config) =
        ((Server.new node').responses C config evs).filter fun r => !r.1.authorized config := by
  have halike : Alike ((calls evs).map Call.ip).toFinset
      (fun ip => ∃ c ∈ calls evs, c.authorized config = true ∧ c.ip = ip) (Server.new node)
      (Server.new node) :=
    ⟨rfl, fun _ _ => rfl, fun q hq => absurd hq Finmap.notMem_empty,
      fun q hq => absurd hq Finmap.notMem_empty⟩
  obtain ⟨hnode, hresponses⟩ := halike.run (C := C) hcard
    (fun c hc => List.mem_toFinset.mpr (List.mem_map_of_mem hc))
    (fun c hc hauth => ⟨c, hc, hauth, rfl⟩) fun c' hc' hauth' => by
      rintro ⟨c, hc, hauth, hip⟩
      exact hapart c hc c' hc' hauth hauth' hip
  exact ⟨hnode, hresponses, refusals_eq (.new node) (.new node') rfl evs⟩

/-- A request for the height, with the token or without it. -/
def sampleCall (ip : String) (headers : HeaderMap) : Call where
  ip
  headers
  envelope := ⟨"2.0", none, "getBlockCount", none⟩
  received := 0
  unix := 0
  order := []

/-- Two clients, of which one has the token; the node hears of a peer in between. -/
def twoClients : List ServerEvent :=
  [.rpc (sampleCall "192.0.2.1" []), .task (.connect "203.0.113.7:8333" true true),
    .rpc (sampleCall "192.0.2.2" [("authorization", utf8 "Bearer secret")])]

/-- The second client is answered, with or without the first. -/
theorem unauthorised_isolated_twoClients :
    ((Server.new sampleNode).responses Crypto.sample ⟨some "secret"⟩ twoClients).filter
        (fun r => r.1.authorized ⟨some "secret"⟩) =
      (Server.new sampleNode).responses Crypto.sample ⟨some "secret"⟩ (twoClients.drop 1) := by
  have hkept : twoClients.filter (keeps ⟨some "secret"⟩) = twoClients.drop 1 := by
    have h : Call.authorized ⟨some "secret"⟩ (sampleCall "192.0.2.1" []) = false ∧
        Call.authorized ⟨some "secret"⟩
          (sampleCall "192.0.2.2" [("authorization", utf8 "Bearer secret")]) = true := by
      decide +kernel
    simp [twoClients, keeps, h]
  have hmain := unauthorised_isolated Crypto.sample ⟨some "secret"⟩ sampleNode sampleNode twoClients
    (by decide +kernel) (by decide +kernel)
  rw [hkept] at hmain
  exact hmain.2.1

end Server

end Rpc

end Arkos
