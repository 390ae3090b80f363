import ReplicatedLedger.Proofs.Cluster.Retention
import ReplicatedLedger.Proofs.Codec.Image
import ReplicatedLedger.Proofs.Pool.Firsts

/-! # Lengths of what a replica holds

A length on the wire has four bytes. What is read has lengths that fit them, and all that a replica holds was read,
or was made of what was read: the blocks in memory, the pending transactions, and the block that is being proposed
(`Fits`). So it stays, whatever happens to the replica (`Undergoes.fits`): its store may be replaced or loaded anew,
and a snapshot may come from anywhere. -/

namespace ReplicatedLedger

open Wire

/-! ### What is read -/

/-- What holds of all that a reader reads holds of all elements of a list. -/
theorem Wire.takes_many_forall {α : Type} {r : Reader α} {P : α → Prop} (h : Takes r fun a _ => P a) (n : Nat) :
    Takes (many r n) fun as _ => ∀ a ∈ as, P a := by
  induction n with
  | zero => exact takes_pure (List.forall_mem_nil _)
  | succ n ih => exact h.bind fun a _ ha => ih.bind fun as _ has => takes_pure (List.forall_mem_cons.mpr ⟨ha, has⟩)

theorem Transaction.fits_of_decode {raw : Bytes} {max : Nat} {t : Transaction} (h : decode raw max = .ok t) : t.Fits :=
  ((takes_transaction max).exactly h).1.1

theorem Transaction.fits_of_decodeList {d : Bytes} {max : Nat} {ts : List Transaction}
    (h : decodeList d max = .ok ts) : ∀ t ∈ ts, t.Fits := by
  have hread : Takes (readList max) fun ts _ => ∀ t ∈ ts, t.Fits := takes_count.bind fun n _ _ =>
    takes_many_forall ((takes_transaction max).imp fun _ _ ht => ht.1.1) n
  exact hread.exactly h

theorem Transaction.fitsSize_of_decodeList {d : Bytes} {max : Nat} {ts : List Transaction}
    (h : decodeList d max = .ok ts) : FitsSize ts.length := by
  have hread : Takes (readList max) fun ts _ => FitsSize ts.length := takes_count.bind fun n _ hn =>
    (takes_many ((takes_transaction max).imp fun _ _ ht => ht.2) n).imp fun _ _ hts => hts.1 ▸ hn.1
  exact hread.exactly h

theorem Message.fits_of_decode {d : Bytes} {sender : ReplicaId} {b : Block}
    (h : Message.decode d = .ok (.proposal sender b)) : b.Fits := by
  have hread : Takes Message.read fun message _ => ∀ sender b, message = .proposal sender b → b.Fits := by
    refine takes_byte.bind fun tag _ _ => ?_
    split
    · refine Request.takes_request.map fun request _ _ sender b hb => ?_
      cases hb
    · refine takes_u32.bind fun sender _ _ => takes_blob.bind fun raw _ _ => ?_
      have hblock : Takes (liftM (Block.decode raw) : Reader Block) fun b _ => b.Fits :=
        takes_lift fun b hb => (Block.takes_block.exactly hb).1
      refine hblock.bind fun b _ hb => takes_pure fun sender' b' heq => ?_
      cases heq
      exact hb
    · exact takes_fail _ _
  exact hread.exactly h sender b rfl

theorem Store.fits_of_readable {s : Store} {height : UInt64} {b : Block} (h : s.readable height = some b) :
    b.Fits := by
  obtain ⟨content, -, hdecode, -⟩ := read_eq_ok_iff.mp (readable_eq_some_iff.mp h)
  exact Block.fits_of_length ((Block.Record.fits_of_decode hdecode).1.mono (Nat.le_add_left _ _))

/-- A stamp makes a block no longer than its nonce. -/
theorem Block.Fits.restamp {b : Block} (h : b.Fits) (timestamp : Int64) {nonce : Bytes} (hnonce : FitsSize nonce.length) :
    (b.restamp timestamp nonce).Fits := ⟨⟨h.header.version, hnonce⟩, h.txs⟩

/-! ### Blocks in memory -/

namespace Ledger

variable {l m : Ledger} {b : Block} {height : UInt64}

/-- All blocks in memory fit. -/
def Window.Fits (w : Window) : Prop := ∀ b ∈ w.blocks, b.Fits

/-- What a ledger finds fits, if what it has in memory does. -/
theorem fits_of_block? (h : l.window.Fits) (hb : l.block? height = some b) : b.Fits := by
  unfold block? at hb
  split at hb
  · cases hb
  · split at hb
    · rename_i hfind
      cases hb
      exact h _ (List.mem_of_find?_eq_some hfind)
    · exact Store.fits_of_readable hb

theorem Window.Fits.keeps (h : l.window.Fits) (hkeeps : l.Keeps m) : m.window.Fits := by
  obtain ⟨vs, rfl⟩ := hkeeps
  exact h

theorem Window.Fits.gains (h : l.window.Fits) (hb : b.Fits) (hgains : l.Gains b m) : m.window.Fits := by
  obtain ⟨s, -, -, -, rfl⟩ := hgains.add_eq
  intro c hc
  rcases mem_blocks_grow hc with rfl | hold
  · exact hb
  · exact h c hold

theorem Window.Fits.add (h : l.window.Fits) (hb : b.Fits) : (l.add b).2.window.Fits := by
  obtain ⟨m, hadd, hkeeps⟩ | ⟨m, hadd, hgains⟩ := l.add_cases b
  · exact hadd ▸ h.keeps hkeeps
  · exact hadd ▸ h.gains hb hgains

/-- What is loaded is read. -/
theorem fits_of_load {s s' : Store} {budget : Nat} {w : Window} (h : load s budget = (.ok w, s')) : w.Fits :=
  fun b hb => Store.fits_of_readable ((coherent_of_load h).2.stored b hb)

theorem Window.Fits.reload (h : l.window.Fits) : l.reload.2.window.Fits := by
  unfold Ledger.reload
  split
  · exact h
  · rename_i hload
    exact fits_of_load hload

theorem fits_of_openIn {naming : Store.Naming} {budget : Nat} {dir dir' : Directory}
    (h : openIn naming budget dir = (.ok l, dir')) : l.window.Fits :=
  fun b hb => Store.fits_of_readable ((coherent_of_openIn h).2.stored b hb)

end Ledger

/-! ### Queues -/

namespace Pool

variable {p : Pool} {ts : List Transaction} {t : Transaction} {n : Nat}

theorem mem_queue_pushAll (h : t ∈ (p.pushAll ts).queue) : t ∈ p.queue ∨ t ∈ ts := by
  rw [queue_pushAll, List.mem_append] at h
  exact h.imp_right fun hnew => (firsts_fresh_sublist p ts).subset hnew

theorem mem_queue_requeue (h : t ∈ (p.requeue ts).2.queue) : t ∈ p.queue ∨ t ∈ ts :=
  mem_queue_pushAll ((queue_sort_perm _).mem_iff.mp h)

theorem mem_queue_take (h : t ∈ (p.take n).2.queue) : t ∈ p.queue := by
  rcases Nat.lt_or_ge p.size n with hlt | hle
  · rwa [take_of_lt hlt] at h
  · rw [take_of_le hle] at h
    exact List.mem_of_mem_drop h

end Pool

/-! ### Replicas -/

namespace Replica

variable {r s : Replica} {b : Block} {ts : List Transaction}

/-- All that the replica holds has lengths that fit; a candidate gets the nonce of its header with the stamp. -/
structure Fits (r : Replica) : Prop where
  window : r.ledger.window.Fits
  consistent : r.pool.Consistent
  queue : ∀ t ∈ r.pool.queue, t.Fits
  candidate : ∀ c, r.pending = some c → (∀ t ∈ c.block.txs.values, t.Fits) ∧ (c.stamped = true → c.block.Fits)

/-- What can happen to a replica. -/
inductive Undergoes (r : Replica) : Replica → Prop where
  | observe (leader : ReplicaId) : Undergoes r (r.observe leader)
  | deliver (delivery : Delivery) (command : Bytes) (stamp : Stamp) (nodes : Nat)
      (short : FitsSize stamp.nonce.length) : Undergoes r (r.deliver delivery command stamp nodes).2
  | openProposal : Undergoes r r.openProposal.2
  | settleProposal (answer : Except SubstrateError Bytes) : Undergoes r (r.settleProposal answer).2
  /-- A snapshot is installed. -/
  | install {snapshot : Bytes} {pool : Pool} (eq_ok : Pool.ofSnapshot snapshot r.settings.maxSize = .ok pool) :
      Undergoes r { r with pool, pending := none }
  /-- The store is replaced. -/
  | refill (store : Store) : Undergoes r (r.withStore store)
  | reload : Undergoes r { r with ledger := r.ledger.reload.2 }
  | add (b : Block) (fits : b.Fits) : Undergoes r { r with ledger := (r.ledger.add b).2 }

theorem Fits.of_start {id leader : ReplicaId} {settings : Settings} {dir dir' : Directory}
    (h : start id settings leader dir = (.ok r, dir')) : r.Fits := by
  obtain ⟨-, hpool, hpending⟩ := start_eq_ok h
  refine ⟨Ledger.fits_of_openIn (Prod.ext (ledger_of_start h) rfl), hpool ▸ Pool.consistent_empty, fun t ht => ?_,
    fun c hc => ?_⟩
  · rw [hpool] at ht
    cases ht
  · rw [hpending] at hc
    cases hc

theorem Fits.observe (h : r.Fits) (leader : ReplicaId) : (r.observe leader).Fits :=
  ⟨h.window, h.consistent, h.queue, h.candidate⟩

/-! ### Queueing -/

theorem Fits.addTransactions (h : r.Fits) (raws : List Bytes) : (r.addTransactions raws).2.Fits := by
  unfold Replica.addTransactions
  split
  · exact h
  · rename_i ts hts
    refine ⟨h.window, h.consistent.addBatch ts, fun t ht => ?_, h.candidate⟩
    rcases Pool.mem_queue_pushAll ht with hold | hnew
    · exact h.queue t hold
    · obtain ⟨raw, -, hdecode⟩ := mem_of_mapM_eq_ok hts t hnew
      exact Transaction.fits_of_decode hdecode

theorem Fits.serve (h : r.Fits) (nodes : Nat) (request : Request) : (r.serve nodes request).2.Fits := by
  cases request with
  | add raw => exact h.addTransactions [raw]
  | addBatch raws => exact h.addTransactions raws
  | _ => exact h

/-! ### Candidates -/

/-- The transactions of a candidate go back into the pool. -/
theorem Fits.giveBack {c : Candidate} {m : Ledger} (h : r.Fits) (hc : r.pending = some c) (hm : m.window.Fits) :
    (r.giveBack c m).Fits := by
  refine ⟨hm, h.consistent.requeue _, fun t ht => ?_, fun c' hc' => by cases hc'⟩
  rcases Pool.mem_queue_requeue ht with hold | hback
  · exact h.queue t hold
  · exact (h.candidate c hc).1 t (c.block.mem_ordered.mp hback)

/-- Transactions that are taken and make no block. -/
theorem Fits.putBack (h : r.Fits) (n : Nat) :
    Fits { r with pool := ((r.pool.take n).2.requeue (r.pool.queue.take n)).2 } := by
  refine ⟨h.window, (h.consistent.take n).requeue _, fun t ht => h.queue t ?_, h.candidate⟩
  exact (Pool.mem_queue_requeue ht).elim Pool.mem_queue_take List.mem_of_mem_take

/-- Transactions that are taken into a candidate, which has no stamp yet. -/
theorem Fits.taken {n : Nat} (h : r.Fits) (hok : r.candidate (r.pool.queue.take n) = .ok b) :
    Fits { r with pool := (r.pool.take n).2, pending := some ⟨b, false⟩ } := by
  refine ⟨h.window, h.consistent.take n, fun t ht => h.queue t (Pool.mem_queue_take ht), fun c hc => ?_⟩
  cases hc
  refine ⟨fun t ht => h.queue t (List.mem_of_mem_take (i := n) ?_), fun hstamped => by cases hstamped⟩
  have hvalues := TxMap.values_ofTransactions_perm (Pool.nodup_map_hash_take h.consistent n)
  exact hvalues.mem_iff.mp ((candidate_builtOn hok).2 ▸ ht)

theorem Fits.assemble (h : r.Fits) (n : Nat) : (r.assemble n).2.Fits := by
  have hassembled := r.assembled n
  generalize r.assemble n = x at hassembled
  cases hassembled with
  | few e => exact h
  | noBlock hle => exact h.putBack n
  | taken b hle hok => exact h.taken hok

theorem Fits.ensureCandidate (h : r.Fits) : r.ensureCandidate.Fits := by
  obtain heq | ⟨-, n, heq⟩ := r.ensureCandidate_cases
  · rw [heq]
    exact h
  · rw [heq]
    exact h.assemble n

theorem Fits.consider (h : r.Fits) (hb : b.Fits) : (r.consider b).2.Fits := by
  have hensured := h.ensureCandidate
  have hconsidered := r.considered b
  generalize r.consider b = x at hconsidered
  cases hconsidered with
  | noCandidate hnone => exact hensured
  | gained c m hc hagrees hgains =>
    exact ⟨h.window.gains hb hgains, hensured.consistent, hensured.queue, fun c' hc' => by cases hc'⟩
  | refused c m hc hkeeps => exact hensured.giveBack hc (h.window.keeps hkeeps)

/-! ### Steps -/

theorem Fits.deliver (h : r.Fits) (delivery : Delivery) (command : Bytes) {stamp : Stamp} (nodes : Nat)
    (hshort : FitsSize stamp.nonce.length) : (r.deliver delivery command stamp nodes).2.Fits := by
  cases hdecode : Message.decode command with
  | error e => exact deliver_of_error hdecode r delivery stamp nodes ▸ h.observe _
  | ok message =>
    cases message with
    | client request =>
      cases delivery with
      | unordered => exact deliver_unordered r command stamp nodes ▸ h.observe _
      | ordered =>
        have hserved := (h.observe stamp.leader).serve nodes request
        simp only [Replica.deliver, hdecode, handle]
        exact hserved
    | proposal sender b =>
      have hb := (Message.fits_of_decode hdecode).restamp stamp.timestamp hshort
      have hdelivered := r.delivered delivery command stamp nodes
      generalize r.deliver delivery command stamp nodes = x at hdelivered
      cases hdelivered with
      | idle reply hno => exact h.observe _
      | queued ts reply hno => exact absurd hdecode (hno sender b)
      | own b' hok hleads hordered =>
        cases hdecode.symm.trans hok
        refine ⟨h.window, h.consistent, h.queue, fun c hc => ?_⟩
        cases hc
        exact ⟨hb.txs, fun _ => hb⟩
      | known b' hok hother hagrees hordered => exact h.observe _
      | considered b' hok hother hnew hordered =>
        cases hdecode.symm.trans hok
        exact (h.observe stamp.leader).consider hb

theorem Fits.openProposal (h : r.Fits) : r.openProposal.2.Fits := by
  have hopened := r.opened
  generalize r.openProposal = x at hopened
  cases hopened with
  | idle outcome hno => exact h
  | noBlock outcome hno hle => exact h.putBack _
  | proposed b hnone hle hok => exact h.taken hok

theorem Fits.settleProposal (h : r.Fits) (answer : Except SubstrateError Bytes) :
    (r.settleProposal answer).2.Fits := by
  have hsettled := r.settled answer
  generalize r.settleProposal answer = x at hsettled
  cases hsettled with
  | noCandidate hnone => exact h
  | committed c m hc haccepts hstamped hgains =>
    have hwindow := h.window.gains ((h.candidate c hc).2 hstamped) hgains
    exact ⟨hwindow, h.consistent, h.queue, fun c' hc' => by cases hc'⟩
  | refused c m n hc hkeeps => exact h.giveBack hc (h.window.keeps hkeeps)

/-- The pool of a snapshot. -/
theorem fits_of_ofSnapshot {snapshot : Bytes} {max : Nat} {pool : Pool} (h : Pool.ofSnapshot snapshot max = .ok pool) :
    pool.Consistent ∧ ∀ t ∈ pool.queue, t.Fits := by
  unfold Pool.ofSnapshot at h
  cases hdecode : Transaction.decodeList snapshot max with
  | error e =>
    rw [hdecode] at h
    cases h
  | ok ts =>
    rw [hdecode] at h
    cases h
    refine ⟨Pool.consistent_empty.pushAll ts, fun t ht => ?_⟩
    rcases Pool.mem_queue_pushAll ht with hno | hin
    · cases hno
    · exact Transaction.fits_of_decodeList hdecode t hin

/-- **Whatever happens to a replica**, what it holds has lengths that fit. -/
theorem Undergoes.fits (h : r.Undergoes s) (hr : r.Fits) : s.Fits := by
  cases h with
  | observe leader => exact hr.observe leader
  | deliver delivery command stamp nodes hshort => exact hr.deliver delivery command nodes hshort
  | openProposal => exact hr.openProposal
  | settleProposal answer => exact hr.settleProposal answer
  | install hok =>
    obtain ⟨hconsistent, hqueue⟩ := fits_of_ofSnapshot hok
    exact ⟨hr.window, hconsistent, hqueue, fun c hc => by cases hc⟩
  | refill store => exact ⟨hr.window, hr.consistent, hr.queue, hr.candidate⟩
  | reload => exact ⟨hr.window.reload, hr.consistent, hr.queue, hr.candidate⟩
  | add b hb => exact ⟨hr.window.add hb, hr.consistent, hr.queue, hr.candidate⟩

end Replica

end ReplicatedLedger
