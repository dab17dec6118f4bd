import Arkos.Rpc.Server
import Arkos.Blockchain.Handover

/-!
# What the answers to submissions are worth

A node has its blocks from its peers, from its own miner and from clients that submit them over RPC.
All of them end in the same calls of `add_block`, so a run of requests and tasks is a run of the
chain (`Server.chain_run`), and what holds of every run of the chain holds of the process.

A client learns from the answer to its submission what became of the block. An accepted one is
stored when the answer is sent: it is above the tip it was checked against, and so not one of those
that are pruned. A refused one has left nothing behind, with the exception of blocks whose coinbases
pay more than a word holds, which are stored before they are refused.

## Main definitions

* `Node.chainEvents`, `Rpc.Server.chainEvents`, `Rpc.Server.history` — the calls behind the events
* `Rpc.Server.Origin` — how a block came in

## Main results

* `Rpc.Server.chain_run`
* `Rpc.Server.answers_truthful`
-/

namespace Arkos

/-! ### Calls that return -/

namespace Blockchain

variable {C : Crypto} {magic : UInt32} {T : Set ℕ} {g : Block} {hist : List Block} {s : Blockchain}
  {now : ℕ} {b : Block}

section

variable (hg : g.height = 0) (hi : Inv C magic T g hist s) (hnow : now ∈ T)
  (hsep : Separated C (hist ++ s.recordedBy C (.addBlock now b)))

include hg hi hnow hsep

/-- A block above the tip that is not refused is stored. -/
theorem mem_of_addBlock_ok (hheight : s.height < b.height) (hok : (s.addBlock C now b).1 = .ok ()) :
    b.hashHex C ∈ (s.addBlock C now b).2.allBlocks := by
  have hafter := (hi.addBlock hg hnow fun _ => hsep).stored
  have hout := hi.outcome hg hnow hsep
  generalize (s.addBlock C now b).1 = r at hout hok
  generalize (s.addBlock C now b).2 = t at hout hafter ⊢
  cases hout with
  | rejected _ _ => cases hok
  | known hmem => exact hmem
  | @side bs w hgrows _ =>
    have hrecorded : (s.recordBlock C b w).allBlocks.lookup (b.hashHex C) = some b := by
      rw [recordBlock, Finmap.lookup_insert]
    rw [pruneStaleOrphans]
    split
    · exact Finmap.mem_of_lookup hrecorded
    · refine Finmap.mem_of_lookup (Finmap.lookup_retain_eq_some.mpr ⟨hrecorded, ?_⟩)
      have hcutoff : (s.recordBlock C b w).height - finalityDepth < b.height :=
        Nat.lt_of_le_of_lt (Nat.sub_le _ _) hheight
      rw [decide_eq_true hcutoff, Bool.true_or]
  | overflow _ _ _ => cases hok
  | activated hne hgrows _ _ =>
    refine Finmap.mem_of_lookup (hafter b ?_)
    rw [pruneStaleOrphans_blocks]
    exact List.mem_append_right _ List.mem_cons_self

/-- A call that is refused leaves the chain as it was, unless a sum overflows. -/
theorem eq_of_addBlock_error {e : ChainError} (herror : (s.addBlock C now b).1 = .error e) :
    (s.addBlock C now b).2 = s ∨ e = .totalMintedOverflow := by
  have hout := hi.outcome hg hnow hsep
  generalize (s.addBlock C now b).1 = r at hout herror
  generalize (s.addBlock C now b).2 = t at hout ⊢
  cases hout with
  | rejected _ _ => exact Or.inl rfl
  | known _ => cases herror
  | side _ _ => cases herror
  | overflow _ _ _ => exact Or.inr (Except.error.inj herror).symm
  | activated _ _ _ _ => cases herror

/-- A block is stored only by a call for it. -/
theorem hashHex_of_mem_addBlock {h : String} (hmem : h ∈ (s.addBlock C now b).2.allBlocks)
    (hnew : h ∉ s.allBlocks) : b.hashHex C = h := by
  obtain ⟨x, hx⟩ := Finmap.mem_iff.mp hmem
  rcases hi.lookup_of_addBlock hg hnow hsep hx with hold | ⟨rfl, -⟩
  · exact absurd (Finmap.mem_of_lookup hold) hnew
  · exact ((hi.addBlock hg hnow fun _ => hsep).own h x hx).1

end

theorem allBlocks_submitTransaction (s : Blockchain) (tx : Transaction) :
    (s.submitTransaction C tx).2.allBlocks = s.allBlocks := by
  obtain ⟨mempool, heq⟩ := submitTransaction_eq (C := C) s tx
  rw [heq]

end Blockchain

/-! ### The calls behind the events -/

namespace Node

variable {C : Crypto}

/-- The calls a task makes. -/
def chainEvents (C : Crypto) (n : Node) : Event → List Arkos.Event
  | .message clock addr (.blockMsg block) =>
    if n.mayMessage clock addr = true ∧ n.mayBlock clock addr = true
    then [.addBlock clock.unix block] else []
  | .message clock addr (.txMsg tx) =>
    if n.mayMessage clock addr = true ∧ n.mayTx clock addr = true
    then [.submitTransaction tx] else []
  | .mine fuel now now' order minerAddress =>
    (n.chain.mineBlock C fuel now order minerAddress).toList.map (.addBlock now')
  | _ => []

/-- The chain after a task is the chain after its calls. -/
theorem chain_step (n : Node) (e : Event) :
    (n.step C e).chain = n.chain.run C (n.chainEvents C e) := by
  cases e with
  | accept now addr handshakeOk versionSent =>
    rw [step, accept]
    split <;> rfl
  | connect addr connected versionSent =>
    rw [step, connectToPeer]
    split <;> rfl
  | message clock addr msg =>
    rw [step, chain_handleMessage]
    cases hmay : n.mayMessage clock addr with
    | false => cases msg <;> simp [chainEvents, hmay, Blockchain.run]
    | true =>
      cases msg with
      | blockMsg block =>
        rw [if_pos rfl, chainAfter, chainEvents]
        cases hblock : n.mayBlock clock addr <;> simp [hmay, Blockchain.run, Blockchain.step]
      | txMsg tx =>
        rw [if_pos rfl, chainAfter, chainEvents]
        cases htx : n.mayTx clock addr <;> simp [hmay, Blockchain.run, Blockchain.step]
      | _ => rfl
  | mine fuel now now' order minerAddress =>
    rw [step, mineBlockAndRelay, chainEvents]
    cases n.chain.mineBlock C fuel now order minerAddress <;> rfl
  | _ => rfl

end Node

namespace Rpc

variable {C : Crypto} {config : RpcServerConfig} {srv : Server} {call : Call} {now : ℕ}
  {s : Blockchain} {order : List (String × Transaction)} {params : SubmitBlockParams}

/-- The call `submit_block` makes. -/
def submitEvents (C : Crypto) (now : ℕ) (s : Blockchain) (order : List (String × Transaction))
    (params : SubmitBlockParams) : List Event :=
  if params.header.meetsTarget C = true ∧ params.height = s.height ∧
      merkleRoot C (submittedBlock s order params).transactions = params.merkleRoot then
    [.addBlock now (submittedBlock s order params)]
  else []

/-- **What `submit_block` does**: it refuses and leaves the chain, or it
returns what its call does. -/
theorem submitBlock_cases (C : Crypto) (now : ℕ) (s : Blockchain)
    (order : List (String × Transaction)) (params : SubmitBlockParams) :
    (submitEvents C now s order params = [] ∧ (submitBlock C now s order params).2 = s ∧
      (submitBlock C now s order params).1.accepted = false ∧
      (submitBlock C now s order params).1.blockHash = params.header.hashHex C) ∨
    (submitEvents C now s order params = [.addBlock now (submittedBlock s order params)] ∧
      params.height = s.height ∧
      (submitBlock C now s order params).2 = (s.addBlock C now (submittedBlock s order params)).2 ∧
      ((s.addBlock C now (submittedBlock s order params)).1 = .ok () ∧
          (submitBlock C now s order params).1 = ⟨true, params.header.hashHex C, none⟩ ∨
        ∃ e, (s.addBlock C now (submittedBlock s order params)).1 = .error e ∧
          (submitBlock C now s order params).1 =
            ⟨false, params.header.hashHex C, some e.message⟩)) := by
  by_cases hpow : params.header.meetsTarget C = true
  swap
  · have hfalse : params.header.meetsTarget C = false := by simpa using hpow
    refine Or.inl ⟨if_neg fun h => hpow h.1, ?_⟩
    rw [submitBlock]
    simp [hfalse]
  by_cases hheight : params.height = s.height
  swap
  · refine Or.inl ⟨if_neg fun h => hheight h.2.1, ?_⟩
    rw [submitBlock]
    simp [hpow, hheight]
  by_cases hroot : merkleRoot C (submittedBlock s order params).transactions = params.merkleRoot
  swap
  · refine Or.inl ⟨if_neg fun h => hroot h.2.2, ?_⟩
    rw [submitBlock]
    simp [hpow, hheight, hroot]
  · refine Or.inr ⟨if_pos ⟨hpow, hheight, hroot⟩, hheight, ?_⟩
    rw [submitBlock]
    simp only [hpow, hheight, hroot, ne_eq, not_true_eq_false, ↓reduceIte, Bool.true_eq_false]
    rcases s.addBlock C now (submittedBlock s order params) with ⟨e | ⟨⟩, s'⟩
    · exact ⟨rfl, Or.inr ⟨e, rfl, rfl⟩⟩
    · exact ⟨rfl, Or.inl ⟨rfl, rfl⟩⟩

theorem chain_submitBlock (C : Crypto) (now : ℕ) (s : Blockchain)
    (order : List (String × Transaction)) (params : SubmitBlockParams) :
    (submitBlock C now s order params).2 = s.run C (submitEvents C now s order params) := by
  rcases submitBlock_cases C now s order params with ⟨hnone, hsame, -, -⟩ | ⟨hcall, -, hsame, -⟩
  · rw [hnone, hsame]
    rfl
  · rw [hcall, hsame]
    rfl

namespace Server

/-- The submission a request makes, if it reaches the handler for submissions. -/
def submission (config : RpcServerConfig) (srv : Server) (call : Call) : Option SubmitBlockParams :=
  if (srv.httpRateLimiter.check call.received call.ip).1 = true ∧ call.envelope.jsonrpc = "2.0" ∧
      call.authorized config = true then
    match parseRequest call.envelope.method call.envelope.params with
    | .ok (.submitBlock params) => some params
    | _ => none
  else none

/-- What a submission is answered, and what it leaves. -/
theorem rpcHandler_of_submission (h : srv.submission config call = some params) :
    (rpcHandler C config call srv).1.outcome =
        .ok (.submitBlock (submitBlock C call.unix srv.node.chain call.order params).1) ∧
      (rpcHandler C config call srv).2.node.chain =
        (submitBlock C call.unix srv.node.chain call.order params).2 := by
  rw [submission] at h
  split at h
  · next hreaches =>
    obtain ⟨hmay, hversion, hauth⟩ := hreaches
    have hparse : parseRequest call.envelope.method call.envelope.params =
        .ok (.submitBlock params) := by
      split at h
      · next hparse => rw [hparse, Option.some.inj h]
      · cases h
    rw [rpcHandler, hmay, hversion, hauth, hparse]
    exact ⟨rfl, rfl⟩
  · cases h

/-- All other requests leave the chain, and are not answered like a submission. -/
theorem rpcHandler_of_no_submission (h : srv.submission config call = none) :
    (rpcHandler C config call srv).2.node.chain = srv.node.chain ∧
      ∀ r, (rpcHandler C config call srv).1.outcome ≠ .ok (.submitBlock r) := by
  rw [rpcHandler]
  dsimp only
  split
  · exact ⟨rfl, fun _ h => by cases h⟩
  next hmay =>
    split
    · exact ⟨rfl, fun _ h => by cases h⟩
    next hversion =>
      split
      · exact ⟨rfl, fun _ h => by cases h⟩
      next hauth =>
        split
        · exact ⟨rfl, fun _ h => by cases h⟩
        · next req hparse =>
          rw [submission, if_pos ⟨by simpa using hmay, not_not.mp hversion, by simpa using hauth⟩,
            hparse] at h
          cases req with
          | submitBlock params => cases h
          | _ => exact ⟨rfl, fun _ h => by cases h⟩

/-- The calls an event makes. -/
def chainEvents (C : Crypto) (config : RpcServerConfig) (srv : Server) : ServerEvent → List Event
  | .rpc call =>
    match srv.submission config call with
    | some params => submitEvents C call.unix srv.node.chain call.order params
    | none => []
  | .task e => srv.node.chainEvents C e

/-- The calls of a run. -/
def history (C : Crypto) (config : RpcServerConfig) : Server → List ServerEvent → List Event
  | _, [] => []
  | srv, e :: evs => srv.chainEvents C config e ++ history C config (srv.step C config e) evs

theorem chain_step (srv : Server) (e : ServerEvent) :
    (srv.step C config e).node.chain = srv.node.chain.run C (srv.chainEvents C config e) := by
  cases e with
  | task e => exact Node.chain_step srv.node e
  | rpc call =>
    rw [chainEvents]
    cases hsub : srv.submission config call with
    | none => exact (rpcHandler_of_no_submission hsub).1
    | some params => exact (rpcHandler_of_submission hsub).2.trans (chain_submitBlock ..)

/-- **A run of the process is a run of the chain.** -/
theorem chain_run (srv : Server) (evs : List ServerEvent) :
    (srv.run C config evs).node.chain = srv.node.chain.run C (srv.history C config evs) := by
  induction evs generalizing srv with
  | nil => rfl
  | cons e evs ih =>
    rw [history, Blockchain.run_append, ← chain_step]
    exact ih _

theorem history_append (srv : Server) (evs evs' : List ServerEvent) :
    srv.history C config (evs ++ evs') =
      srv.history C config evs ++ (srv.run C config evs).history C config evs' := by
  induction evs generalizing srv with
  | nil => rfl
  | cons e evs ih =>
    rw [List.cons_append, history, history, ih, List.append_assoc]
    rfl

/-! ### Where blocks come from -/

/-- **How a block came in**: from a peer within its limits, from the miner of the node, or with a
submission that carried the token and was not refused, unless for an overflow. -/
inductive Origin (C : Crypto) (config : RpcServerConfig) (srv : Server) (h : String) :
    ServerEvent → Prop
  | peer {clock addr block} : srv.node.mayMessage clock addr = true →
      srv.node.mayBlock clock addr = true → block.hashHex C = h →
      Origin C config srv h (.task (.message clock addr (.blockMsg block)))
  | mined {fuel now now' order minerAddress block} :
      srv.node.chain.mineBlock C fuel now order minerAddress = some block → block.hashHex C = h →
      Origin C config srv h (.task (.mine fuel now now' order minerAddress))
  | submitted {call r} : call.authorized config = true →
      (rpcHandler C config call srv).1.outcome = .ok (.submitBlock r) → r.blockHash = h →
      (r.accepted = true ∨ r.error = some ChainError.totalMintedOverflow.message) →
      Origin C config srv h (.rpc call)

variable {magic : UInt32} {g : Block} {hist : List Block}

/-- The token was looked at. -/
theorem authorized_of_submission (h : srv.submission config call = some params) :
    call.authorized config = true := by
  rw [submission] at h
  split at h
  · next hreaches => exact hreaches.2.2
  · cases h

/-- **What a submission is answered is true.** -/
theorem submission_answered (hg : g.height = 0) (hi : Blockchain.Inv C magic Set.univ g hist s)
    (hsep : Separated C (hist ++ s.recorded C (submitEvents C now s order params))) :
    (submitBlock C now s order params).1.blockHash = params.header.hashHex C ∧
    ((submitBlock C now s order params).1.accepted = true →
      params.header.hashHex C ∈ (submitBlock C now s order params).2.allBlocks) ∧
    ((submitBlock C now s order params).1.accepted = false →
      (submitBlock C now s order params).2 = s ∨ (submitBlock C now s order params).1.error =
        some ChainError.totalMintedOverflow.message) := by
  rcases submitBlock_cases C now s order params with
    ⟨-, hsame, hrefused, hhash⟩ | ⟨hcall, hheight, hsame, hanswer⟩
  · exact ⟨hhash, fun h => absurd (h.symm.trans hrefused) (by simp), fun _ => Or.inl hsame⟩
  · rw [hcall, Blockchain.recorded, Blockchain.recorded, List.append_nil] at hsep
    have habove : s.height < (submittedBlock s order params).height := by
      show s.height < params.height + 1
      omega
    rw [hsame]
    rcases hanswer with ⟨hok, hanswer⟩ | ⟨e, herror, hanswer⟩
    · rw [hanswer]
      refine ⟨rfl, fun _ => ?_, fun h => by cases h⟩
      exact Blockchain.mem_of_addBlock_ok hg hi trivial hsep habove hok
    · rw [hanswer]
      refine ⟨rfl, fun h => (by cases h), fun _ => ?_⟩
      refine (Blockchain.eq_of_addBlock_error hg hi trivial hsep herror).imp_right ?_
      rintro rfl
      rfl

/-- A block that an event brings in has an origin. -/
theorem origin_of_step (hg : g.height = 0)
    (hi : Blockchain.Inv C magic Set.univ g hist srv.node.chain) {e : ServerEvent}
    (hsep : Separated C (hist ++ srv.node.chain.recorded C (srv.chainEvents C config e)))
    {h : String}
    (hmem : h ∈ (srv.step C config e).node.chain.allBlocks) (hnew : h ∉ srv.node.chain.allBlocks) :
    Origin C config srv h e := by
  rw [chain_step] at hmem
  cases e with
  | rpc call =>
    rw [chainEvents] at hmem hsep
    cases hsub : srv.submission config call with
    | none =>
      rw [hsub] at hmem
      exact absurd hmem hnew
    | some params =>
      rw [hsub] at hmem hsep
      dsimp only at hmem hsep
      rw [← chain_submitBlock] at hmem
      obtain ⟨houtcome, -⟩ := rpcHandler_of_submission (C := C) hsub
      obtain ⟨hhash, -, hrefused⟩ := submission_answered hg hi hsep
      refine .submitted (authorized_of_submission hsub) houtcome ?_ ?_
      · rcases submitBlock_cases C call.unix srv.node.chain call.order params with
          ⟨-, hsame, -, -⟩ | ⟨hcall, -, hsame, -⟩
        · exact absurd (hsame ▸ hmem) hnew
        · rw [hcall, Blockchain.recorded, Blockchain.recorded, List.append_nil] at hsep
          rw [hhash]
          exact Blockchain.hashHex_of_mem_addBlock hg hi trivial hsep (hsame ▸ hmem) hnew
      · cases haccepted : (submitBlock C call.unix srv.node.chain call.order params).1.accepted with
        | true => exact Or.inl rfl
        | false =>
          refine Or.inr ((hrefused haccepted).resolve_left fun hsame => ?_)
          exact hnew (hsame ▸ hmem)
  | task e =>
    have hcalls : srv.chainEvents C config (.task e) = srv.node.chainEvents C e := rfl
    rw [hcalls] at hmem hsep
    have hcall : ∀ now b, srv.node.chainEvents C e = [.addBlock now b] → b.hashHex C = h :=
      fun now b heq => by
        rw [heq] at hmem hsep
        rw [Blockchain.recorded, Blockchain.recorded, List.append_nil] at hsep
        exact Blockchain.hashHex_of_mem_addBlock hg hi trivial hsep hmem hnew
    cases e with
    | message clock addr msg =>
      cases msg with
      | blockMsg block =>
        by_cases hmay : srv.node.mayMessage clock addr = true ∧ srv.node.mayBlock clock addr = true
        · exact .peer hmay.1 hmay.2 (hcall clock.unix block (if_pos hmay))
        · rw [Node.chainEvents, if_neg hmay] at hmem
          exact absurd hmem hnew
      | txMsg tx =>
        rw [Node.chainEvents] at hmem
        split at hmem
        · rw [Blockchain.run, List.foldl_cons, List.foldl_nil, Blockchain.step,
            Blockchain.allBlocks_submitTransaction] at hmem
          exact absurd hmem hnew
        · exact absurd hmem hnew
      | _ => exact absurd hmem hnew
    | mine fuel now now' order minerAddress =>
      cases hmined : srv.node.chain.mineBlock C fuel now order minerAddress with
      | none =>
        rw [Node.chainEvents, hmined] at hmem
        exact absurd hmem hnew
      | some block =>
        refine .mined hmined (hcall now' block ?_)
        rw [Node.chainEvents, hmined]
        rfl
    | _ => exact absurd hmem hnew

/-- **Answers to submissions are true, and blocks have an origin.** A node starts from a genesis,
and its tasks and the requests of clients come in any order. An accepted submission is in the node
when it is answered, and a refused one has changed nothing unless a sum overflowed. Every block the
node has at the end came in with some event: from a peer within its limits, from its own miner, or
with a submission that carried the token. -/
theorem answers_truthful (C : Crypto) (g : Block) (hg : g.height = 0) (store : Option BlockStore)
    (magic : UInt32) (config : RpcServerConfig) (node : Node)
    (hnode : node.chain = .fromGenesisWithMagic C g store magic) (evs : List ServerEvent)
    (hsep : Separated C (g :: node.chain.recorded C ((Server.new node).history C config evs))) :
    (∀ pre call post r, pre ++ .rpc call :: post = evs →
      (rpcHandler C config call ((Server.new node).run C config pre)).1.outcome =
        .ok (.submitBlock r) →
      (r.accepted = true → r.blockHash ∈
        (rpcHandler C config call ((Server.new node).run C config pre)).2.node.chain.allBlocks) ∧
      (r.accepted = false →
        (rpcHandler C config call ((Server.new node).run C config pre)).2.node.chain =
          ((Server.new node).run C config pre).node.chain ∨
        r.error = some ChainError.totalMintedOverflow.message)) ∧
    ∀ h ∈ ((Server.new node).run C config evs).node.chain.allBlocks, h = g.hashHex C ∨
      ∃ pre e post, pre ++ e :: post = evs ∧
        Origin C config ((Server.new node).run C config pre) h e := by
  -- what holds before every event
  have hbefore : ∀ pre e post, pre ++ e :: post = evs → ∃ hist,
      Blockchain.Inv C magic Set.univ g hist ((Server.new node).run C config pre).node.chain ∧
      Separated C (hist ++ ((Server.new node).run C config pre).node.chain.recorded C
        (((Server.new node).run C config pre).chainEvents C config e)) := by
    rintro pre e post rfl
    rw [history_append, history, Blockchain.recorded_append, Blockchain.recorded_append,
      ← List.append_assoc] at hsep
    have hrun : ((Server.new node).run C config pre).node.chain =
        node.chain.run C ((Server.new node).history C config pre) := chain_run _ _
    rw [← hrun] at hsep
    refine ⟨g :: node.chain.recorded C ((Server.new node).history C config pre), ?_, ?_⟩
    · rw [hrun, hnode]
      refine Blockchain.inv_run_of_separated hg store magic _ (hsep.mono fun x hx => ?_)
      rw [hnode]
      exact (List.mem_cons.mp hx).elim (fun hx => hx ▸ List.mem_cons_self) fun hx =>
        List.mem_cons_of_mem _ (List.mem_append_left _ (List.mem_append_left _ hx))
    · exact hsep.mono fun x hx => (List.mem_append.mp hx).elim
        (fun hx => (List.mem_cons.mp hx).elim (fun hx => hx ▸ List.mem_cons_self) fun hx =>
          List.mem_cons_of_mem _ (List.mem_append_left _ (List.mem_append_left _ hx)))
        fun hx => List.mem_cons_of_mem _ (List.mem_append_left _ (List.mem_append_right _ hx))
  refine ⟨fun pre call post r hsplit houtcome => ?_, ?_⟩
  · obtain ⟨hist, hi, hsep'⟩ := hbefore pre (.rpc call) post hsplit
    generalize (Server.new node).run C config pre = srv at hi hsep' houtcome ⊢
    cases hsub : srv.submission config call with
    | none => exact absurd houtcome ((rpcHandler_of_no_submission hsub).2 r)
    | some params =>
      rw [chainEvents, hsub] at hsep'
      obtain ⟨houtcome', hchain⟩ := rpcHandler_of_submission (C := C) hsub
      obtain rfl := RpcResult.submitBlock.inj (Except.ok.inj (houtcome.symm.trans houtcome'))
      obtain ⟨hhash, haccepted, hrefused⟩ := submission_answered hg hi hsep'
      rw [hchain, hhash]
      exact ⟨haccepted, hrefused⟩
  · -- by induction on the run, from its end
    clear hsep
    induction evs using List.reverseRecOn with
    | nil =>
      intro h hh
      have hh : h ∈ node.chain.allBlocks := hh
      rw [hnode] at hh
      exact Or.inl ((Finmap.mem_insert.mp hh).resolve_right Finmap.notMem_empty)
    | append_singleton evs e ih =>
      intro h hh
      have ih := ih fun pre e' post hsplit => hbefore pre e' (post ++ [e]) (by
        rw [← hsplit, List.append_assoc, List.cons_append])
      by_cases hold : h ∈ ((Server.new node).run C config evs).node.chain.allBlocks
      · refine (ih h hold).imp_right ?_
        rintro ⟨pre, e', post, rfl, horigin⟩
        exact ⟨pre, e', post ++ [e], by rw [List.append_assoc, List.cons_append], horigin⟩
      · obtain ⟨hist, hi, hsep'⟩ := hbefore evs e [] rfl
        have hstep : (Server.new node).run C config (evs ++ [e]) =
            ((Server.new node).run C config evs).step C config e := List.foldl_append
        rw [hstep] at hh
        exact Or.inr ⟨evs, e, [], rfl, origin_of_step hg hi hsep' hh hold⟩

/-! ### A submission -/

/-- What a miner sends back for the first template of `sampleNode`. -/
def sampleSubmission : SubmitBlockParams :=
  (getBlockTemplate Crypto.sample sampleNow sampleNode.chain [] sampleAddress).toParams
    sampleAddress 0

/-- The request it sends. -/
def minerCall : Call where
  ip := "192.0.2.2"
  headers := [("authorization", utf8 "Bearer secret")]
  envelope := ⟨"2.0", none, "submitBlock", some sampleSubmission.wire.toJson⟩
  received := 0
  unix := sampleNow
  order := []

/-- Its block is accepted, and the node has it. -/
theorem answers_truthful_minerCall :
    sampleSubmission.header.hashHex Crypto.sample ∈
      (rpcHandler Crypto.sample ⟨some "secret"⟩ minerCall
        (.new sampleNode)).2.node.chain.allBlocks := by
  have hreaches :
      ((Server.new sampleNode).httpRateLimiter.check minerCall.received minerCall.ip).1 = true ∧
        minerCall.envelope.jsonrpc = "2.0" ∧ minerCall.authorized ⟨some "secret"⟩ = true := by
    decide +kernel
  have hsub :
      (Server.new sampleNode).submission ⟨some "secret"⟩ minerCall = some sampleSubmission := by
    have hparse : parseRequest minerCall.envelope.method minerCall.envelope.params =
        .ok (.submitBlock sampleSubmission) := parseRequest_toJson (by decide +kernel)
    rw [submission, if_pos hreaches, hparse]
  have hanswer : (submitBlock Crypto.sample sampleNow sampleNode.chain [] sampleSubmission).1 =
      ⟨true, sampleSubmission.header.hashHex Crypto.sample, none⟩ := by
    decide +kernel
  have hhistory : (Server.new sampleNode).history Crypto.sample ⟨some "secret"⟩ [.rpc minerCall] =
      submitEvents Crypto.sample sampleNow sampleNode.chain [] sampleSubmission := by
    rw [history, history, chainEvents, hsub, List.append_nil]
    rfl
  have hsep : Separated Crypto.sample (sampleGenesis :: sampleNode.chain.recorded Crypto.sample
      ((Server.new sampleNode).history Crypto.sample ⟨some "secret"⟩ [.rpc minerCall])) := by
    rw [hhistory, Separated]
    decide +kernel
  have hmain := (answers_truthful Crypto.sample sampleGenesis rfl none regtestMagic ⟨some "secret"⟩
    sampleNode rfl [.rpc minerCall] hsep).1 [] minerCall [] _ rfl
    (rpcHandler_of_submission hsub).1
  have hhash := congrArg SubmitBlockResponse.blockHash hanswer
  have hmem := hmain.1 (congrArg SubmitBlockResponse.accepted hanswer)
  rwa [show (submitBlock Crypto.sample minerCall.unix (Server.new sampleNode).node.chain
    minerCall.order sampleSubmission).1.blockHash = _ from hhash] at hmem

end Server

end Rpc

end Arkos
