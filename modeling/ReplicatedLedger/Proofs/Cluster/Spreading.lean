import ReplicatedLedger.Proofs.Cluster.Runs

/-! # Which block spreads in a step

While a proposal is delivered and settled, every ledger is kept or gains the proposed block with the
stamp of the delivery (`Told.deliver`, `Told.settle`). So in each step of a run all ledgers that gain a
block gain the same one, and the sequence number of the step is its nonce (`spreads_perform`). -/

namespace ReplicatedLedger

/-! ### Ledgers in one step -/

namespace Ledger

variable {l m : Ledger} {b c : Block}

theorem Gains.unique (h : l.Gains b m) (h' : l.Gains c m) : b = c := h.tip_eq.symm.trans h'.tip_eq

theorem Gains.not_keeps (h : l.Gains b m) : ¬ l.Keeps m := by
  intro hkeeps
  have hlt := h.lt
  rw [← h.tip_eq, hkeeps.tip_eq] at hlt
  exact UInt64.lt_irrefl _ hlt

end Ledger

namespace Cluster

/-- The block that a command proposes, stamped. -/
def StampedFrom (command : Bytes) (stamp : Stamp) (b : Block) : Prop :=
  ∃ sender p, Message.decode command = .ok (.proposal sender p) ∧ b = p.restamp stamp.timestamp stamp.nonce

theorem StampedFrom.unique {command : Bytes} {stamp : Stamp} {b c : Block} (h : StampedFrom command stamp b)
    (h' : StampedFrom command stamp c) : b = c := by
  obtain ⟨sender, p, hp, rfl⟩ := h
  obtain ⟨sender', q, hq, rfl⟩ := h'
  rw [hp] at hq
  cases hq
  rfl

/-- What has become of the ledger of a replica while a command of `host` is delivered: it is kept or has
gained the proposed block; that of `host` is kept until it settles, and only the proposed block may be
its stamped candidate. -/
structure Told (c : Cluster) (host : ReplicaId) (command : Bytes) (stamp : Stamp) (k : ReplicaId)
    (s : Replica) : Prop where
  id : s.id = k
  ledger : ∃ r, c.replica? k = some r ∧ (r.ledger.Keeps s.ledger ∨
    k ≠ host ∧ ∃ b, StampedFrom command stamp b ∧ r.ledger.Gains b s.ledger)
  candidate : k = host → ∀ x, s.pending = some x → x.stamped = true → StampedFrom command stamp x.block

theorem StampedFrom.nonce_eq {command : Bytes} {stamp : Stamp} {b : Block} (h : StampedFrom command stamp b) :
    b.header.nonce = stamp.nonce := by
  obtain ⟨sender, p, -, rfl⟩ := h
  rfl

variable {c d : Cluster} {host k : ReplicaId} {stamp : Stamp}

/-- **One delivery** of a proposal of `host`. -/
theorem Told.deliver {b : Block} {s : Replica} (h : Told c host (Message.proposal host b).encode stamp k s)
    (nodes : Nat) : Told c host (Message.proposal host b).encode stamp k
      (s.deliver .ordered (Message.proposal host b).encode stamp nodes).2 := by
  refine ⟨(s.id_deliver _ _ _ _).trans h.id, ?_, fun hk => ?_⟩
  · obtain ⟨r, hr, hledger⟩ := h.ledger
    refine ⟨r, hr, ?_⟩
    rcases s.ledger_deliver .ordered (Message.proposal host b).encode stamp nodes with
      hsame | ⟨p, -, hok, hother, hnew, hnext⟩
    · rw [hsame]
      exact hledger
    · have hstamped : StampedFrom (Message.proposal host b).encode stamp
          (p.restamp stamp.timestamp stamp.nonce) := ⟨_, p, hok, rfl⟩
      rcases hledger with hkept | ⟨hk, d, hd, hgained⟩
      · rcases hnext with hkeeps | hgains
        · exact Or.inl (hkept.trans hkeeps)
        · refine Or.inr ⟨?_, _, hstamped, hkept.trans_gains hgains⟩
          rw [Message.sender_eq_of_decode hok, h.id] at hother
          exact hother.symm
      · -- the proposed block is the tip already
        rw [hgained.tip_eq, hd.unique hstamped, Replica.agrees_restamp] at hnew
        cases hnew
  · have hid : s.id = host := h.id.trans hk
    have hdelivered := s.delivered .ordered (Message.proposal host b).encode stamp nodes
    generalize s.deliver .ordered (Message.proposal host b).encode stamp nodes = x at hdelivered
    cases hdelivered with
    | idle | queued | known => exact h.candidate hk
    | own d hok hleads =>
      intro x hx _
      cases hx
      exact ⟨_, d, hok, rfl⟩
    | considered d hok hother hnew =>
      rw [Message.sender_eq_of_decode hok, hid] at hother
      exact absurd rfl hother

/-- The proposal is open: all ledgers are as they were, and the candidate has no stamp. -/
theorem Told.start (hplain : c.Plain) {r : Replica} (hr : c.replica? host = some r) {message : Message}
    (hopen : r.openProposal.1 = .submit message) (command : Bytes) (stamp : Stamp) :
    (∃ b, message = .proposal host b) ∧ ∀ k s, (c.setReplica host r.openProposal.2).replica? k = some s →
      Told c host command stamp k s := by
  have hid : r.id = host := hplain.ids host r hr
  have hopened := r.opened
  generalize r.openProposal = x at hopened hopen
  cases hopened with
  | idle | noBlock => cases hopen
  | proposed b hnone hle hok =>
    cases hopen
    refine ⟨⟨b, by rw [hid]⟩, fun k s hs => ?_⟩
    rw [replica?_setReplica] at hs
    split_ifs at hs with hk
    · cases hs
      refine ⟨hid.trans hk.symm, ⟨r, hk ▸ hr, Or.inl (Ledger.Keeps.refl _)⟩, fun _ x hx hstamped => ?_⟩
      cases hx
      cases hstamped
    · exact ⟨hplain.ids k s hs, ⟨s, hs, Or.inl (Ledger.Keeps.refl _)⟩, fun he => absurd he hk⟩

/-- The answer is in: a replica keeps its ledger or has gained the proposed block. -/
theorem Told.settle {command : Bytes} (h : ∀ k s, d.replica? k = some s → Told c host command stamp k s)
    (answer : Except SubstrateError Bytes) (k : ReplicaId) (s : Replica)
    (hs : (d.updateReplica host (fun s => s.settleProposal answer) (.rejected 0)).2.replica? k = some s) :
    ∃ r, c.replica? k = some r ∧
      (r.ledger.Keeps s.ledger ∨ ∃ b, StampedFrom command stamp b ∧ r.ledger.Gains b s.ledger) := by
  rw [replica?_updateReplica] at hs
  split_ifs at hs with hk
  · subst hk
    obtain ⟨t, ht, rfl⟩ := Option.map_eq_some_iff.mp hs
    have htold := h k t ht
    obtain ⟨r, hr, hkept | ⟨hne, -⟩⟩ := htold.ledger
    · refine ⟨r, hr, ?_⟩
      have hsettled := t.settled answer
      generalize t.settleProposal answer = x at hsettled
      cases hsettled with
      | noCandidate hnone => exact Or.inl hkept
      | committed x m hx haccepts hstamped hgains =>
        exact Or.inr ⟨x.block, htold.candidate rfl x hx hstamped, hkept.trans_gains hgains⟩
      | refused x m n hx hkeeps => exact Or.inl (hkept.trans hkeeps)
    · exact absurd rfl hne
  · obtain ⟨r, hr, hledger⟩ := (h k s hs).ledger
    exact ⟨r, hr, hledger.imp_right fun ⟨_, hb⟩ => hb⟩

/-! ### One step -/

/-- In the step some replicas gain the block, if there is one, and all others keep their ledgers. The
block has the sequence number of the step as its nonce. -/
structure Spreads (c : Cluster) (gained : Option Block) (d : Cluster) : Prop where
  running : ∀ k, (d.replica? k).isSome = (c.replica? k).isSome
  ledgers : ∀ k s, d.replica? k = some s → ∃ r, c.replica? k = some r ∧
    (r.ledger.Keeps s.ledger ∨ ∃ b, gained = some b ∧ r.ledger.Gains b s.ledger)
  sequence : d.sequence = c.sequence ∨ d.sequence = c.sequence + 1
  stamped : ∀ b, gained = some b → d.sequence = c.sequence + 1 ∧
    b.header.nonce = Bytes.bigEndian 8 d.sequence.toNat

/-- A step in which all ledgers are kept. -/
theorem Spreads.of_keeps (hrunning : ∀ k, (d.replica? k).isSome = (c.replica? k).isSome)
    (hsequence : d.sequence = c.sequence ∨ d.sequence = c.sequence + 1)
    (h : ∀ k s, d.replica? k = some s → ∃ r, c.replica? k = some r ∧ r.ledger.Keeps s.ledger) :
    c.Spreads none d where
  running := hrunning
  ledgers k s hs := (h k s hs).imp fun _ hr => ⟨hr.1, Or.inl hr.2⟩
  sequence := hsequence
  stamped _ hb := by cases hb

/-- The replica of a host has the ledger that it had in the first cluster, up to verdicts. -/
def Kept (c : Cluster) (k : ReplicaId) (s : Replica) : Prop :=
  ∃ r, c.replica? k = some r ∧ r.ledger.Keeps s.ledger

theorem kept_self : ∀ k s, c.replica? k = some s → Kept c k s := fun _ s hs => ⟨s, hs, Ledger.Keeps.refl _⟩

/-- A request of a client spreads no block. -/
theorem spreads_request (hplain : c.Plain) {delivery : Delivery} {command : Bytes}
    (hgenuine : (Op.request delivery command).Genuine) :
    c.Spreads none (c.perform (.request delivery command)) := by
  have hkept : ∀ (stamp : Stamp) k s nodes, Kept c k s →
      Kept c k (s.deliver delivery command stamp nodes).2 := by
    rintro stamp k s nodes ⟨r, hr, hkeeps⟩
    rcases s.ledger_deliver delivery command stamp nodes with hsame | ⟨b, rfl, hok, -⟩
    · exact ⟨r, hr, hsame ▸ hkeeps⟩
    · exact absurd hok (hgenuine _ _)
  cases delivery with
  | ordered =>
    obtain ⟨hnet, hledgers⟩ := order_invariant hplain.members (hkept c.tick.stamp) kept_self
    exact .of_keeps hnet.running (Or.inr hnet.sequence) hledgers
  | unordered =>
    rcases askLeader_cases hplain.members command with heq | ⟨host, stamp, -, heq⟩
    · simp only [perform, heq]
      exact .of_keeps (fun _ => rfl) (Or.inl rfl) kept_self
    · simp only [perform, heq]
      have hnet := sameNet_updateReplica c host (c.told .unordered command stamp) []
      exact .of_keeps hnet.running (Or.inl hnet.sequence)
        (forall_updateReplica kept_self (c.told .unordered command stamp)
          (fun r hr => hkept stamp host r _ hr) [])

/-- A proposal that is submitted spreads the proposed block, stamped, or none. -/
theorem spreads_submitted (hplain : c.Plain) {r : Replica} (hr : c.replica? host = some r) {message : Message}
    (hopen : r.openProposal.1 = .submit message) :
    ∃ gained, c.Spreads gained ((c.setReplica host r.openProposal.2).conclude host message.encode).2 := by
  have hopened := sameNet_setReplica hr r.openProposal.2
  obtain ⟨⟨b, rfl⟩, -⟩ := Told.start hplain hr hopen [] c.stamp
  have hstart := fun stamp => (Told.start hplain hr hopen (Message.proposal host b).encode stamp).2
  generalize c.setReplica host r.openProposal.2 = c₁ at hopened hstart
  have hstep : ∀ k s nodes, Told c host (Message.proposal host b).encode c₁.tick.stamp k s →
      Told c host (Message.proposal host b).encode c₁.tick.stamp k
        (s.deliver .ordered (Message.proposal host b).encode c₁.tick.stamp nodes).2 :=
    fun k s nodes h => h.deliver nodes
  obtain ⟨htold, hinv⟩ := order_invariant (hopened.members ▸ hplain.members) hstep (hstart c₁.tick.stamp)
  unfold conclude
  generalize (c₁.order (Message.proposal host b).encode).1 = answer
  generalize (c₁.order (Message.proposal host b).encode).2 = c₂ at htold hinv
  have hnet : c.tick.SameNet (c₂.updateReplica host (fun s => s.settleProposal answer) (.rejected 0)).2 :=
    hopened.tick.trans (htold.trans (sameNet_updateReplica c₂ host _ _))
  have hsettle := Told.settle hinv answer
  -- a proposal that does not come back as it was sent spreads nothing
  by_cases hexists : ∃ d, StampedFrom (Message.proposal host b).encode c₁.tick.stamp d
  · obtain ⟨d, hd⟩ := hexists
    refine ⟨some d, hnet.running, fun k s hs => ?_, Or.inr hnet.sequence, ?_⟩
    · obtain ⟨q, hq, hledger⟩ := hsettle k s hs
      exact ⟨q, hq, hledger.imp_right fun ⟨e, he, hgains⟩ => ⟨d, rfl, he.unique hd ▸ hgains⟩⟩
    · intro e he
      cases he
      refine ⟨hnet.sequence, ?_⟩
      rw [hd.nonce_eq, hnet.sequence, ← hopened.tick.sequence]
      rfl
  · refine ⟨none, .of_keeps hnet.running (Or.inr hnet.sequence) fun k s hs => ?_⟩
    obtain ⟨q, hq, hkeeps | ⟨e, he, -⟩⟩ := hsettle k s hs
    · exact ⟨q, hq, hkeeps⟩
    · exact absurd ⟨e, he⟩ hexists

theorem spreads_propose (hplain : c.Plain) (host : ReplicaId) :
    ∃ gained, c.Spreads gained (c.propose host).2 := by
  have hproposed := c.proposed host
  generalize c.propose host = x at hproposed
  cases hproposed with
  | noReplica hr => exact ⟨none, .of_keeps (fun _ => rfl) (Or.inl rfl) kept_self⟩
  | unsubmitted r outcome hr hopen =>
    have hnet := sameNet_setReplica hr r.openProposal.2
    have hkept : Kept c host r.openProposal.2 := ⟨r, hr, r.ledger_openProposal ▸ Ledger.Keeps.refl _⟩
    exact ⟨none, .of_keeps hnet.running (Or.inl hnet.sequence) (forall_setReplica kept_self hkept)⟩
  | submitted r message hr hopen => exact spreads_submitted hplain hr hopen

/-- **In one step** all replicas that gain a block gain the same one, with the sequence number of the
step as its nonce. -/
theorem spreads_perform (hplain : c.Plain) {op : Op} (hgenuine : op.Genuine) :
    ∃ gained, c.Spreads gained (c.perform op) := by
  have hsame : ∀ d : Cluster, d.hosts = c.hosts → d.sequence = c.sequence → c.Spreads none d := by
    intro d hhosts hsequence
    have hreplica : ∀ k, d.replica? k = c.replica? k := fun k => by rw [replica?, replica?, hhosts]
    exact .of_keeps (fun k => by rw [hreplica]) (Or.inl hsequence) fun k s hs =>
      kept_self k s (hreplica k ▸ hs)
  cases op with
  | request delivery command => exact ⟨none, spreads_request hplain hgenuine⟩
  | register id host => exact ⟨none, hsame _ rfl rfl⟩
  | deregister id => exact ⟨none, hsame _ rfl rfl⟩
  | setLeader id => exact ⟨none, hsame _ rfl rfl⟩
  | observe host leader =>
    have hnet := sameNet_updateReplica c host (fun r => ((), r.observe leader)) ()
    exact ⟨none, .of_keeps hnet.running (Or.inl hnet.sequence)
      (forall_updateReplica kept_self _ (fun r hr => hr) ())⟩
  | propose host => exact spreads_propose hplain host

end Cluster

end ReplicatedLedger
