import ReplicatedLedger.Client
import ReplicatedLedger.Proofs.Cluster.Exclusion
import ReplicatedLedger.Proofs.Cluster.Histories

/-! # What clients of a cluster are told

An unordered command goes to the replica that leads, if it is there (`leading?`), and changes nothing but who that
replica thinks leads (`askLeader_of_leading`). What a replica of a reachable cluster answers has lengths that fit, so
that a client reads the answer itself, and it is of the kind that the call expects (`answered_call`). To a request
that writes every member that is there gives a truth value. So a call returns a value or an error of the substrate, and
a call that reads returns what the leader answers (`calls_answered`). -/

namespace ReplicatedLedger

open Wire

/-! ### Replies -/

namespace Replica

variable {r : Replica}

/-- What a replica answers has lengths that fit. -/
theorem Fits.answer (h : r.Fits) (nodes : Nat) (request : Request) : (r.answer nodes request).Fits := by
  have hblock : ∀ {height b}, r.ledger.block? height = some b → b.Fits := Ledger.fits_of_block? h.window
  have htip : r.ledger.tip.Fits := h.window _ List.mem_cons_self
  cases request with
  | tip => exact htip
  | tipSummary => exact htip.header
  | block height =>
    cases hb : r.ledger.block? height with
    | none => simp only [Replica.answer, hb, Option.map_none, Option.getD_none, Reply.Fits]
    | some b =>
      simp only [Replica.answer, hb, Option.map_some, Option.getD_some, Reply.Fits]
      exact hblock hb
  | blockSummary height =>
    cases hb : r.ledger.block? height with
    | none => simp only [Replica.answer, hb, Option.map_none, Option.getD_none, Reply.Fits]
    | some b =>
      simp only [Replica.answer, hb, Option.map_some, Option.getD_some, Reply.Fits]
      exact (hblock hb).header
  | height | add | addBatch | chainValid | leader | status | nodes => trivial

/-- The answer to a request is no error report. -/
theorem answer_ne_error (r : Replica) (nodes : Nat) (request : Request) (text : String) :
    r.answer nodes request ≠ .error text := by
  cases request with
  | block height | blockSummary height =>
    simp only [Replica.answer]
    cases r.ledger.block? height <;> exact Reply.noConfusion
  | tip | tipSummary | height | add | addBatch | chainValid | leader | status | nodes => exact Reply.noConfusion

/-- The reply to a request that writes is a truth value. -/
theorem exists_bool_addTransactions (r : Replica) (raws : List Bytes) :
    ∃ v, (r.addTransactions raws).1 = .bool v := by
  unfold addTransactions
  split <;> exact ⟨_, rfl⟩

end Replica

namespace Cluster

variable {c : Cluster} {host : ReplicaId} {l : Replica} {α : Type}

/-! ### Asking the leader -/

/-- The replica that leads, with its host, if it is there. -/
def leading? (c : Cluster) : Option (ReplicaId × Replica) :=
  match c.member? c.leader with
  | some (.replica host) => (c.replica? host).map fun l => (host, l)
  | _ => none

theorem leading?_eq_some_iff : c.leading? = some (host, l) ↔
    c.member? c.leader = some (.replica host) ∧ c.replica? host = some l := by
  unfold leading?
  constructor
  · intro h
    split at h
    · rename_i host' hmember
      obtain ⟨l', hl', heq⟩ := Option.map_eq_some_iff.mp h
      cases heq
      exact ⟨hmember, hl'⟩
    · cases h
  · rintro ⟨hmember, hl⟩
    simp only [hmember, hl, Option.map_some]

/-- A replica that is a member, and there, runs. -/
theorem exists_of_member? {id : ReplicaId} (h : c.member? id = some (.replica host)) :
    ∃ r, c.replica? host = some r :=
  Option.isSome_iff_exists.mp (Option.filter_eq_some_iff.mp h).2

theorem member?_leader_of_leading?_eq_none (hplain : ∀ e ∈ c.members.entries, ∃ host, e.2 = .replica host)
    (h : c.leading? = none) : c.member? c.leader = none := by
  cases hmember : c.member? c.leader with
  | none => rfl
  | some m =>
    have hget : c.members.get? c.leader = some m := (Option.filter_eq_some_iff.mp hmember).1
    obtain ⟨host, rfl⟩ : ∃ host, m = .replica host := hplain (c.leader, m) ((SortedMap.get?_eq_some_iff _).mp hget)
    obtain ⟨r, hr⟩ := exists_of_member? hmember
    rw [leading?_eq_some_iff.mpr ⟨hmember, hr⟩] at h
    cases h

/-- **A request to the leader** is answered by the replica that leads, which remembers that it leads. -/
theorem askLeader_of_leading (h : c.leading? = some (host, l)) {request : Request} (hfits : request.Fits) :
    c.askLeader (Message.client request).encode =
      (.ok ((l.observe c.leader).answer c.view.length request).encode, c.setReplica host (l.observe c.leader)) := by
  obtain ⟨hmember, hl⟩ := leading?_eq_some_iff.mp h
  have hmessage : (Message.client request).Fits := hfits
  simp only [askLeader, hmember, tell, updateReplica_of_some hl, Replica.deliver, Message.decode_encode hmessage,
    Replica.handle]

/-! ### Calls that read -/

/-- What a call that reads returns: what the leader answers itself, if it is there. -/
def Answered (c : Cluster) (own : Replica → α) (returned : Except ClientError α × Cluster) : Prop :=
  match c.leading? with
  | none => returned = (.error (.substrate (.unavailable c.leader)), c)
  | some (host, l) => returned = (.ok (own l), c.setReplica host (l.observe c.leader))

theorem Answered.eq_ok {own : Replica → α} {returned : Except ClientError α × Cluster} (h : c.Answered own returned)
    (hl : c.leading? = some (host, l)) : returned = (.ok (own l), c.setReplica host (l.observe c.leader)) := by
  unfold Answered at h
  rwa [hl] at h

/-- **A call that reads**, if the answer is of the kind that it expects. -/
theorem answered_call (hfits : c.Fits) (hplain : ∀ e ∈ c.members.entries, ∃ host, e.2 = .replica host)
    {request : Request} (hrequest : request.Fits) {read : Reply → Option α} {own : Replica → α}
    (hread : ∀ l, read ((Replica.observe l c.leader).answer c.view.length request) = some (own l)) :
    c.Answered own (Client.call c .unordered request read) := by
  unfold Answered
  cases h : c.leading? with
  | none =>
    have hasked : c.askLeader (Message.client request).encode = (.error (.unavailable c.leader), c) := by
      simp only [askLeader, member?_leader_of_leading?_eq_none hplain h]
    simp only [Client.call, Client.request, Substrate.submit, Queryable.ask, hasked]
  | some found =>
    obtain ⟨host, l⟩ := found
    obtain ⟨-, hl⟩ := leading?_eq_some_iff.mp h
    have hanswer := (((hfits.replicas host l hl).observe c.leader).answer c.view.length request)
    have hdecode := Reply.decode_encode hanswer
    have hkind := (l.observe c.leader).answer_ne_error c.view.length request
    have hown := hread l
    simp only [Client.call, Client.request, Substrate.submit, Queryable.ask, askLeader_of_leading h hrequest, hdecode]
    generalize (l.observe c.leader).answer c.view.length request = reply at hkind hown
    cases reply with
    | error text => exact absurd rfl (hkind text)
    | block | summary | height | bool | leader | count | status | notFound => simp only [hown]

/-! ### Calls that write -/

/-- To a request that writes every member gives a truth value. -/
theorem exists_bool_of_order (hplain : ∀ e ∈ c.members.entries, ∃ host, e.2 = .replica host) {request : Request}
    (hrequest : request.Fits) (hwrites : request.isReadOnly = false) {raw : Bytes}
    (h : (c.order (Message.client request).encode).1 = .ok raw) : ∃ v, raw = (Reply.bool v).encode := by
  have hmessage : (Message.client request).Fits := hrequest
  have hreply : ∀ (r : Replica) nodes, ∃ v,
      (r.deliver .ordered (Message.client request).encode c.tick.stamp nodes).1 = .bool v := by
    intro r nodes
    simp only [Replica.deliver, Message.decode_encode hmessage, Replica.handle]
    cases request with
    | add raw => exact Replica.exists_bool_addTransactions _ [raw]
    | addBatch raws => exact Replica.exists_bool_addTransactions _ raws
    | _ => cases hwrites
  refine forall_mem_tellAll_of_running (c := c.tick) (P := fun _ _ => True)
    (R := fun raw => ∃ v, raw = (Reply.bool v).encode) (members_of_live hplain)
    (fun host hhost => ?_) (fun _ _ _ _ => trivial) (fun _ _ _ => trivial)
    (fun k r nodes _ _ => (hreply r nodes).imp fun v hv => congrArg Reply.encode hv) raw (order_eq_ok h).2.1
  obtain ⟨e, he, hm⟩ := List.mem_map.mp hhost
  have hlive : c.isLive e.2 = true := (List.mem_filter.mp he).2
  rw [hm] at hlive
  exact hlive

/-- **A call that writes** returns a truth value, or an error of the substrate. -/
theorem exists_returned_write (hplain : ∀ e ∈ c.members.entries, ∃ host, e.2 = .replica host) {request : Request}
    (hrequest : request.Fits) (hwrites : request.isReadOnly = false) :
    (∃ v, (Client.call c .ordered request Client.bool?).1 = .ok v) ∨
      ∃ e, (Client.call c .ordered request Client.bool?).1 = .error (.substrate e) := by
  cases horder : c.order (Message.client request).encode with
  | mk result d =>
    cases result with
    | error e =>
      refine Or.inr ⟨e, ?_⟩
      simp only [Client.call, Client.request, Substrate.submit, Substrate.order, horder]
    | ok raw =>
      obtain ⟨v, rfl⟩ := exists_bool_of_order hplain hrequest hwrites (congrArg Prod.fst horder)
      have hdecode : Reply.decode (Reply.bool v).encode = .ok (.bool v) := Reply.decode_encode trivial
      refine Or.inl ⟨v, ?_⟩
      simp only [Client.call, Client.request, Substrate.submit, Substrate.order, horder, hdecode, Client.bool?]

/-! ### All calls -/

/-- **What clients are told.** Whatever a cluster has been through, if all members are replicas and lengths fit: a call
that writes returns a truth value or an error of the substrate; a call that reads returns what the replica that leads
answers itself, and changes nothing but that this replica remembers that it leads, or, if no replica leads, returns an
error of the substrate. -/
theorem calls_answered (hreach : c.Reachable) (hplain : ∀ e ∈ c.members.entries, ∃ host, e.2 = .replica host) :
    (∀ raw, FitsSize raw.length →
      (∃ v, (Client.add c raw).1 = .ok v) ∨ ∃ e, (Client.add c raw).1 = .error (.substrate e)) ∧
    (∀ raws, FitsSize raws.length → (∀ raw ∈ raws, FitsSize raw.length) →
      (∃ v, (Client.addBatch c raws).1 = .ok v) ∨ ∃ e, (Client.addBatch c raws).1 = .error (.substrate e)) ∧
    c.Answered (·.ledger.tip) (Client.tip c) ∧
    c.Answered (·.ledger.tip.summary) (Client.tipSummary c) ∧
    (∀ height, c.Answered (·.ledger.block? height) (Client.block c height)) ∧
    (∀ height, c.Answered (fun l => (l.ledger.block? height).map Block.summary) (Client.blockSummary c height)) ∧
    c.Answered (·.ledger.tipHeight) (Client.height c) ∧
    c.Answered (·.ledger.isChainValid) (Client.isChainValid c) ∧
    c.Answered (fun _ => c.leader) (Client.leader c) ∧
    (∀ hash, c.Answered (·.status hash) (Client.status c hash)) ∧
    c.Answered (fun _ => (min c.view.length (UInt32.size - 1)).toUInt32) (Client.nodes c) := by
  have hfits := hreach.fits
  have hanswered : ∀ {α : Type} {request : Request} {read : Reply → Option α} {own : Replica → α}, request.Fits →
      (∀ l, read ((Replica.observe l c.leader).answer c.view.length request) = some (own l)) →
      c.Answered own (Client.call c .unordered request read) := fun hrequest hread =>
    answered_call hfits hplain hrequest hread
  refine ⟨fun raw hraw => exists_returned_write hplain hraw rfl,
    fun raws hnumber hraws => exists_returned_write hplain ⟨hnumber, hraws⟩ rfl, hanswered trivial fun _ => rfl,
    hanswered trivial fun _ => rfl, fun height => hanswered trivial fun l => ?_,
    fun height => hanswered trivial fun l => ?_, hanswered trivial fun _ => rfl, hanswered trivial fun _ => rfl,
    hanswered trivial fun _ => rfl, fun hash => hanswered trivial fun _ => rfl, hanswered trivial fun _ => rfl⟩
  · simp only [Replica.answer, Replica.observe]
    cases l.ledger.block? height <;> rfl
  · simp only [Replica.answer, Replica.observe]
    cases l.ledger.block? height <;> rfl

/-! ### A leader that committed a block -/

/-- The three replicas after a transaction was submitted and its block committed. -/
def trioCommitted : Cluster := trio.run [.submit slim, .propose 0]

theorem reachable_trio : trio.Reachable := by
  have hstarted := ((Reachable.empty 0).serve (.ofList [("a:1", 0)])).startAll fetching [0, 1]
  have hlast := hstarted.start 2 { fetching with maxSize := slim.size } .fresh
  exact ((hlast.perform (.register 0 0)).perform (.register 1 1)).perform (.register 2 2)

theorem leading?_trioCommitted : ∃ l, trioCommitted.leading? = some (0, l) ∧ trioCommitted.leader = 0 ∧
    l.ledger.tipHeight = 1 ∧ l.ledger.tip.contains slim.hash = true ∧ l.ledger.block? 2 = none ∧
    l.status slim.hash = .inBlock 1 := by
  have htest : trioCommitted.leading?.any fun found => decide (found.1 = 0) && (decide (trioCommitted.leader = 0) &&
      (found.2.ledger.tipHeight == 1 && (found.2.ledger.tip.contains slim.hash &&
        (decide (found.2.ledger.block? 2 = none) && decide (found.2.status slim.hash = .inBlock 1))))) := by
    decide +kernel
  obtain ⟨⟨host, l⟩, hl, hchecked⟩ := (Option.any_eq_true _ _).mp htest
  simp only [Bool.and_eq_true, decide_eq_true_iff, beq_iff_eq] at hchecked
  obtain ⟨rfl, hrest⟩ := hchecked
  exact ⟨l, hl, hrest⟩

/-- The replica that leads has a block above the first one, with the transaction. -/
theorem calls_answered_trio : trioCommitted.Reachable ∧
    (∀ e ∈ trioCommitted.members.entries, ∃ host, e.2 = .replica host) ∧
    (∃ b, (Client.tip trioCommitted).1 = .ok b ∧ b.contains slim.hash = true) ∧
    (Client.height trioCommitted).1 = .ok 1 ∧ (Client.block trioCommitted 2).1 = .ok none ∧
    (Client.status trioCommitted slim.hash).1 = .ok (.inBlock 1) ∧ (Client.leader trioCommitted).1 = .ok 0 := by
  have hreach : trioCommitted.Reachable := reachable_trio.run _
  have hplain := (plain_trio.run [.submit slim, .propose 0]).members
  obtain ⟨l, hl, hzero, hheight, htip, hnone, hstatus⟩ := leading?_trioCommitted
  obtain ⟨-, -, htip', -, hblock, -, hheight', -, hleader, hstatus', -⟩ := calls_answered hreach hplain
  refine ⟨hreach, hplain, ⟨_, congrArg Prod.fst (htip'.eq_ok hl), htip⟩, ?_, ?_, ?_, ?_⟩
  · rw [hheight'.eq_ok hl, hheight]
  · rw [(hblock 2).eq_ok hl, hnone]
  · rw [(hstatus' slim.hash).eq_ok hl, hstatus]
  · rw [hleader.eq_ok hl, hzero]

end Cluster

end ReplicatedLedger
