import ReplicatedLedger.Proofs.Cluster.CatchUp
import ReplicatedLedger.Proofs.Ledger.Refinement

/-! # Transactions that are pending and on the ledger

A proposal moves transactions from the pool of a replica to its ledger, so that none is in both. A catch-up gives a
replica the blocks that it lacks and leaves its pool alone, so that a transaction of these blocks may still be
pending (`exists_pending_held`). That is the only way: a transaction that is submitted once is in both the
pool and the ledger of a replica only after a catch-up of this replica that brought it to the ledger
(`caughtUp_of_pending_held`). -/

namespace ReplicatedLedger

theorem Block.contains_genesis (hash : Digest) :
    Block.genesis.contains hash = true ↔ hash = Block.genesisTransaction.hash := by
  have hget : ∀ t, Block.genesis.txs.get? hash = some t ↔ t ∈ [Block.genesisTransaction] ∧ t.hash = hash := fun t =>
    TxMap.get?_ofTransactions_eq_some_iff (by simp)
  simp only [Block.contains, SortedMap.contains, Option.isSome_iff_exists, hget, List.mem_singleton]
  constructor
  · rintro ⟨t, rfl, hhash⟩
    exact hhash.symm
  · intro h
    exact ⟨_, rfl, h.symm⟩

namespace Cluster

/-! ### Runs with catch-ups -/

/-- An operation on a cluster, or a catch-up of a replica. -/
inductive Event where
  | perform (op : Op)
  | catchUp (host : ReplicaId)

/-- A client orders no proposal. -/
def Event.Genuine : Event → Prop
  | perform op => op.Genuine
  | catchUp _ => True

/-- A client submits a transaction with the hash. -/
def Event.Submits : Event → Digest → Prop
  | perform op, hash => op.Submits hash
  | catchUp _, _ => False

/-- The cluster after an event. -/
def undergo (c : Cluster) : Event → Cluster
  | .perform op => c.perform op
  | .catchUp host => c.catchUp host

/-- The cluster after the first `i` events. -/
def after (c : Cluster) (events : List Event) (i : Nat) : Cluster := (events.take i).foldl undergo c

/-- A client submits a transaction with the hash in step `i`. -/
def SubmittedAt (events : List Event) (i : Nat) (hash : Digest) : Prop :=
  ∃ event, events[i]? = some event ∧ event.Submits hash

variable {c : Cluster} {event : Event} {events : List Event} {hash : Digest} {i j : Nat} {k : ReplicaId}

theorem after_succ (h : events[i]? = some event) : c.after events (i + 1) = (c.after events i).undergo event := by
  rw [after, List.take_add_one, h, Option.toList_some, List.foldl_append]
  rfl

theorem after_of_getElem?_eq_none (h : events[i]? = none) : c.after events (i + 1) = c.after events i := by
  rw [after, List.take_add_one, h, Option.toList_none, List.append_nil]
  rfl

/-- What every event keeps holds after any number of them. -/
theorem after_induction {I : Cluster → Prop} (h : I c)
    (hstep : ∀ n < i, ∀ event, events[n]? = some event → I (c.after events n) → I ((c.after events n).undergo event)) :
    I (c.after events i) := by
  induction i with
  | zero => exact h
  | succ i ih =>
    have hbefore := ih fun n hn => hstep n (Nat.lt_succ_of_lt hn)
    cases hevent : events[i]? with
    | none =>
      rw [after_of_getElem?_eq_none hevent]
      exact hbefore
    | some event =>
      rw [after_succ hevent]
      exact hstep i (Nat.lt_succ_self i) event hevent hbefore

theorem Plain.undergo (h : c.Plain) (event : Event) : (c.undergo event).Plain := by
  cases event with
  | perform op => exact h.perform op
  | catchUp host => exact h.catchUp host

theorem Ready.undergo (h : c.Ready) (hplain : c.Plain) (hgenuine : event.Genuine) : (c.undergo event).Ready := by
  cases event with
  | perform op => exact h.perform hplain hgenuine
  | catchUp host => exact h.catchUp hplain host

theorem Lacks.undergo (h : c.Lacks hash) (hplain : c.Plain) (hready : c.Ready)
    (hgenesis : Block.genesis.contains hash = false) (hgenuine : event.Genuine) (hno : ¬ event.Submits hash) :
    (c.undergo event).Lacks hash := by
  cases event with
  | perform op => exact h.perform hplain hready hgenuine hno
  | catchUp host => exact h.catchUp hplain hgenesis host

/-- **One event** leaves a transaction both pending and on the ledger of a replica if it was before, if it is submitted
again, or if the replica catches up and its ledger comes to hold it. -/
theorem pending_held_of_undergo (hplain : c.Plain) (hready : c.Ready) (hgenuine : event.Genuine) {r : Replica}
    (hr : (c.undergo event).replica? k = some r) (hpending : r.pool.contains hash = true)
    (hheld : r.ledger.Holds hash) : ∃ q, c.replica? k = some q ∧
      ((q.pool.contains hash = true ∨ event.Submits hash) ∧ q.ledger.Holds hash ∨
        event = .catchUp k ∧ q.pool.contains hash = true ∧ r.pool = q.pool ∧ ¬ q.ledger.Holds hash) := by
  cases event with
  | perform op =>
    obtain ⟨q, hq, hqueues | ⟨b, hcommits⟩⟩ := moves_perform hplain hready hgenuine k r hr
    · exact ⟨q, hq, .inl ⟨hqueues.fresh hash hpending, hqueues.ledger.holds hheld⟩⟩
    · -- the transactions of the block are not pending any more
      rw [hcommits.pool, Bool.and_eq_true, Bool.not_eq_true'] at hpending
      rcases hcommits.ledger.holds hcommits.height hheld with hin | hbefore
      · rw [hpending.2] at hin
        cases hin
      · exact ⟨q, hq, .inl ⟨.inl hpending.1, hbefore⟩⟩
  | catchUp host =>
    obtain ⟨q, hq, hrefills, hledger⟩ := (refills_catchUp hplain.members host).2 k r hr
    have hpool : q.pool.contains hash = true := hrefills.pool ▸ hpending
    by_cases hbefore : q.ledger.Holds hash
    · exact ⟨q, hq, .inl ⟨.inl hpool, hbefore⟩⟩
    · have hk : k = host := by
        by_contra hne
        exact hbefore (hledger hne ▸ hheld)
      exact ⟨q, hq, .inr ⟨hk ▸ rfl, hpool, hrefills.pool, hbefore⟩⟩

/-- In step `i` the replica of the host catches up, and its ledger comes to hold a transaction that is pending there,
and stays pending. -/
def CaughtUpAt (c : Cluster) (events : List Event) (i : Nat) (k : ReplicaId) (hash : Digest) : Prop :=
  events[i]? = some (.catchUp k) ∧ ∃ r s, (c.after events i).replica? k = some r ∧
    (c.after events (i + 1)).replica? k = some s ∧ r.pool.contains hash = true ∧ s.pool = r.pool ∧
    ¬ r.ledger.Holds hash ∧ s.ledger.Holds hash

section

variable (hplain : c.Plain) (hready : c.Ready) (hgenuine : ∀ event ∈ events, event.Genuine)

include hplain

theorem plain_after (i : Nat) : (c.after events i).Plain :=
  after_induction hplain fun _ _ event _ ih => ih.undergo event

include hready hgenuine

theorem ready_after (i : Nat) : (c.after events i).Ready :=
  after_induction hready fun n _ event hevent ih =>
    ih.undergo (plain_after hplain n) (hgenuine event (List.mem_of_getElem? hevent))

/-- **Until it is submitted** there is nothing of a transaction in the cluster. -/
theorem lacks_after (hlacks : c.Lacks hash) (hgenesis : Block.genesis.contains hash = false)
    (hno : ∀ n < i, ¬ SubmittedAt events n hash) : (c.after events i).Lacks hash :=
  after_induction hlacks fun n hn event hevent ih =>
    ih.undergo (plain_after hplain n) (ready_after hplain hready hgenuine n) hgenesis
      (hgenuine event (List.mem_of_getElem? hevent)) fun h => hno n hn ⟨event, hevent, h⟩

/-- **Pending and on the ledger.** Take any run of requests of clients, proposals of replicas, changes of the leader and
the members, and catch-ups, and a transaction that is nowhere at the start, is not that of the first block and is
submitted in one step at most. If a replica has it pending while its ledger holds it, then a catch-up of this
replica brought it to the ledger while it was pending. -/
theorem caughtUp_of_pending_held (hlacks : c.Lacks hash) (hgenesis : hash ≠ Block.genesisTransaction.hash)
    (honce : ∀ m n, SubmittedAt events m hash → SubmittedAt events n hash → m = n) {r : Replica}
    (hr : (c.after events j).replica? k = some r) (hpending : r.pool.contains hash = true)
    (hheld : r.ledger.Holds hash) : ∃ i < j, CaughtUpAt c events i k hash := by
  have hfirst : Block.genesis.contains hash = false :=
    Bool.eq_false_iff.mpr fun h => hgenesis ((Block.contains_genesis hash).mp h)
  induction j generalizing r with
  | zero => exact absurd hheld (hlacks.replicas k r hr).ledger.not_holds
  | succ j ih =>
    have hearlier : ∀ {q}, (c.after events j).replica? k = some q → q.pool.contains hash = true →
        q.ledger.Holds hash → ∃ i < j + 1, CaughtUpAt c events i k hash := fun hq hpool hledger => by
      obtain ⟨i, hi, hcaught⟩ := ih hq hpool hledger
      exact ⟨i, Nat.lt_succ_of_lt hi, hcaught⟩
    cases hevent : events[j]? with
    | none =>
      rw [after_of_getElem?_eq_none hevent] at hr
      exact hearlier hr hpending hheld
    | some event =>
      have hafter := hr
      rw [after_succ hevent] at hafter
      obtain ⟨q, hq, ⟨hpool | hnew, hbefore⟩ | ⟨rfl, hpool, hsame, hbefore⟩⟩ := pending_held_of_undergo
        (plain_after hplain j) (ready_after hplain hready hgenuine j) (hgenuine event (List.mem_of_getElem? hevent))
        hafter hpending hheld
      · exact hearlier hq hpool hbefore
      · -- it is submitted now, so nothing of it was there
        have hno : ∀ n < j, ¬ SubmittedAt events n hash := fun n hn hsubmitted =>
          Nat.ne_of_lt hn (honce n j hsubmitted ⟨event, hevent, hnew⟩)
        have hnowhere := lacks_after hplain hready hgenuine hlacks hfirst hno
        exact absurd hbefore (hnowhere.replicas k q hq).ledger.not_holds
      · exact ⟨j, Nat.lt_succ_self j, hevent, q, r, hq, hr, hpool, hsame, hbefore, hheld⟩

end

/-! ### Three replicas -/

theorem eq_of_submits {t : Transaction} (hfits : Wire.FitsSize t.encode.length) (h : (Op.submit t).Submits hash) :
    hash = t.hash := by
  obtain ⟨request, hrequest, raw, hraw, max, u, hu, rfl⟩ := h
  have hadd : (Message.client (.add t.encode)).Fits := hfits
  rw [Message.decode_encode hadd] at hrequest
  cases hrequest
  obtain rfl := List.mem_singleton.mp hraw
  rw [Transaction.eq_of_decode_encode hfits hu]

/-- A transaction, and one that is longer by a byte. -/
def slim : Transaction := .ofContent ⟨"1.0", 1, [], none⟩

def wide : Transaction := .ofContent ⟨"1.0", 2, [0], none⟩

/-- Blocks of one transaction, which are fetched from the replica 0. -/
def fetching : Settings :=
  { Settings.standard with
    proposals := ⟨1, 1⟩
    transfer := { Settings.Transfer.standard with peers := .ofList [(0, "a:1")] } }

/-- Three members over empty directories, of which the last takes no transaction that is longer than the first of the
two. -/
def trio : Cluster :=
  ((((({ empty 0 with servers := .ofList [("a:1", 0)] }.startAll fetching [0, 1]).start 2
    { fetching with maxSize := slim.size } .fresh).2.register 0 0).register 1 1).register 2 2)

/-- Both transactions are submitted and committed, the longer one first, and then the last replica catches up. -/
def trioEvents : List Event :=
  [.perform (.submit wide), .perform (.submit slim), .perform (.propose 0), .perform (.propose 0), .catchUp 2]

theorem plain_trio : trio.Plain := by
  have hempty : ({ empty 0 with servers := .ofList [("a:1", 0)] } : Cluster).Plain :=
    ⟨(plain_empty 0).members, (plain_empty 0).ids⟩
  exact ((((hempty.startAll fetching [0, 1]).start 2 _ _).perform (.register 0 0)).perform (.register 1 1)).perform
    (.register 2 2)

theorem ready_trio : trio.Ready := by
  have hempty : ({ empty 0 with servers := .ofList [("a:1", 0)] } : Cluster).Ready := ready_empty 0
  exact (hempty.startAll fetching [0, 1]).start 2 _ _

theorem lacks_trio (hgenesis : Block.genesis.contains hash = false) : trio.Lacks hash := by
  have hfresh : Directory.fresh.HoldsOnly fun b => b.contains hash = false := Directory.holdsOnly_empty _ _ _
  have hempty : ({ empty 0 with servers := .ofList [("a:1", 0)] } : Cluster).Lacks hash :=
    ⟨(lacks_empty hash 0).replicas, (lacks_empty hash 0).stopped⟩
  have hstarted := ((hempty.start hgenesis 0 fetching hfresh).start hgenesis 1 fetching hfresh).start hgenesis 2
    { fetching with maxSize := slim.size } hfresh
  exact ⟨hstarted.replicas, hstarted.stopped⟩

theorem genuine_trioEvents : ∀ event ∈ trioEvents, event.Genuine := by
  have hsubmit : ∀ {t : Transaction}, Wire.FitsSize t.encode.length → (Op.submit t).Genuine := fun h => genuine_add h
  simp only [trioEvents, List.forall_mem_cons]
  exact ⟨hsubmit (by decide), hsubmit (by decide), trivial, trivial, trivial, List.forall_mem_nil _⟩

/-- Each of the two transactions is submitted once, and nothing else. -/
theorem submittedAt_trioEvents (h : SubmittedAt trioEvents i hash) :
    i = 0 ∧ hash = wide.hash ∨ i = 1 ∧ hash = slim.hash := by
  obtain ⟨event, hevent, hsubmits⟩ := h
  match i, hevent with
  | 0, hevent =>
    cases hevent
    exact Or.inl ⟨rfl, eq_of_submits (by decide) hsubmits⟩
  | 1, hevent =>
    cases hevent
    exact Or.inr ⟨rfl, eq_of_submits (by decide) hsubmits⟩
  | 2, hevent | 3, hevent | 4, hevent =>
    cases hevent
    exact hsubmits.elim

theorem submittedOnce_trioEvents {m n : Nat} (hm : SubmittedAt trioEvents m hash)
    (hn : SubmittedAt trioEvents n hash) : m = n := by
  have hne : wide.hash ≠ slim.hash := by decide +kernel
  rcases submittedAt_trioEvents hm with ⟨rfl, hwide⟩ | ⟨rfl, hslim⟩
  · rcases submittedAt_trioEvents hn with ⟨rfl, -⟩ | ⟨rfl, hslim⟩
    · rfl
    · exact absurd (hwide.symm.trans hslim) hne
  · rcases submittedAt_trioEvents hn with ⟨rfl, hwide⟩ | ⟨rfl, -⟩
    · exact absurd (hwide.symm.trans hslim) hne
    · rfl

/-- In the end the last replica has a transaction pending that is in a block of its ledger. -/
theorem pending_trio : ∃ r b, (trio.after trioEvents 5).replica? 2 = some r ∧ r.pool.contains slim.hash = true ∧
    r.ledger.block? 2 = some b ∧ b.contains slim.hash = true := by
  have hchecked : ((trio.after trioEvents 4).replica? 2).any (fun r =>
      decide (((trio.after trioEvents 4).fetched r).result.toOption = some 2) &&
        (((trio.after trioEvents 4).refetched 2 r).replica? 2).any fun s =>
          s.pool.contains slim.hash && decide s.ledger.store.naming.Flat &&
            (s.ledger.store.readable 2).any (·.contains slim.hash)) = true := by decide +kernel
  obtain ⟨r, hr, hfetched⟩ := (Option.any_eq_true _ _).mp hchecked
  rw [Bool.and_eq_true, decide_eq_true_iff] at hfetched
  obtain ⟨hresult, hstored⟩ := hfetched
  obtain ⟨s, hs, hread⟩ := (Option.any_eq_true _ _).mp hstored
  rw [Bool.and_eq_true, Bool.and_eq_true, decide_eq_true_iff] at hread
  obtain ⟨⟨hpool, hflat⟩, hread⟩ := hread
  obtain ⟨b, hb, hin⟩ := (Option.any_eq_true _ _).mp hread
  have hcaught : trio.after trioEvents 5 = (((trio.after trioEvents 4).refetched 2 r).reload 2).2 := by
    have hlast : trioEvents[4]? = some (.catchUp 2) := rfl
    have hevent : trio.after trioEvents 5 = (trio.after trioEvents 4).catchUp 2 := after_succ hlast
    rw [hevent, catchUp_eq hr]
    cases hfound : ((trio.after trioEvents 4).fetched r).result with
    | error e => simp [hfound, Except.toOption] at hresult
    | ok n =>
      rw [hfound] at hresult
      cases hresult
      rfl
  refine ⟨{ s with ledger := s.ledger.reload.2 }, b, ?_, hpool, Ledger.block?_reload hflat hb, hin⟩
  rw [hcaught, reload, replica?_updateReplica, if_pos rfl, hs]
  rfl

theorem hash_ne_genesis_trio :
    wide.hash ≠ Block.genesisTransaction.hash ∧ slim.hash ≠ Block.genesisTransaction.hash := by
  decide +kernel

/-- The catch-up of the last replica brought the transaction to its ledger. -/
theorem caughtUp_of_pending_held_trio : ∃ r, (trio.after trioEvents 5).replica? 2 = some r ∧
    r.pool.contains slim.hash = true ∧ r.ledger.Holds slim.hash ∧
      ∃ i < 5, CaughtUpAt trio trioEvents i 2 slim.hash := by
  obtain ⟨r, b, hr, hpool, hblock, hin⟩ := pending_trio
  have hheld : r.ledger.Holds slim.hash := Ledger.holds_of_block? hblock hin
  have hgenesis : Block.genesis.contains slim.hash = false :=
    Bool.eq_false_iff.mpr fun h => hash_ne_genesis_trio.2 ((Block.contains_genesis _).mp h)
  exact ⟨r, hr, hpool, hheld, caughtUp_of_pending_held plain_trio ready_trio genuine_trioEvents (lacks_trio hgenesis)
    hash_ne_genesis_trio.2 (fun _ _ => submittedOnce_trioEvents) hr hpool hheld⟩

/-- **A transaction may be pending and on the ledger**: no transaction is submitted twice, none is that of the first
block, and no client orders a proposal. -/
theorem exists_pending_held : (∀ event ∈ trioEvents, event.Genuine) ∧
    (∀ hash m n, SubmittedAt trioEvents m hash → SubmittedAt trioEvents n hash → m = n) ∧
    (∀ n, ¬ SubmittedAt trioEvents n Block.genesisTransaction.hash) ∧
    ∃ r b, (trio.after trioEvents 5).replica? 2 = some r ∧ r.pool.contains slim.hash = true ∧
      r.ledger.block? 2 = some b ∧ b.contains slim.hash = true := by
  refine ⟨genuine_trioEvents, fun _ _ _ => submittedOnce_trioEvents, fun n h => ?_, pending_trio⟩
  rcases submittedAt_trioEvents h with ⟨-, hwide⟩ | ⟨-, hslim⟩
  · exact hash_ne_genesis_trio.1 hwide.symm
  · exact hash_ne_genesis_trio.2 hslim.symm

end Cluster

end ReplicatedLedger
