import ReplicatedLedger.Proofs.Codec.Message
import ReplicatedLedger.Proofs.Ledger.Coherence
import ReplicatedLedger.Proofs.Replica.Steps

/-! # The chain of a replica stays linked

A session is a replica with its own proposals under way. Commands with any content reach it in any
order, but its own proposals only as it submitted them and while they are under way. Every candidate was
built on the tip, or has become too low to be added (`Block.SoundOn`), so that every block that the
ledger gains was built on the tip (`Whole.grows`). Since the ledger is coherent, its chain stays valid
(`Whole.step`). -/

namespace ReplicatedLedger

/-! ### Blocks that leave no gap -/

/-- The block was built on the tip, or is too low to be added. -/
def Block.SoundOn (b tip : Block) : Prop := b.BuiltOn tip ∨ b.height ≤ tip.height

namespace Block.SoundOn

variable {b c tip : Block} {l m : Ledger}

theorem restamp (h : b.SoundOn tip) (timestamp : Int64) (nonce : Bytes) :
    (b.restamp timestamp nonce).SoundOn tip := h.imp (fun hb => ⟨hb.height, hb.previous⟩) id

theorem of_agrees (h : b.SoundOn tip) (hagrees : Replica.agrees b c = true) : c.SoundOn tip := by
  obtain ⟨hheight, -, -⟩ := Replica.agrees_iff.mp hagrees
  exact h.imp (Replica.builtOn_of_agrees hagrees) fun hle => hheight ▸ hle

/-- A block that is gained is not too low. -/
theorem builtOn (h : b.SoundOn l.tip) (hgains : l.Gains b m) : b.BuiltOn l.tip :=
  h.resolve_right (UInt64.not_le.mpr hgains.lt)

end Block.SoundOn

/-- The ledger is kept, or gains a block that was built on its tip. -/
def Ledger.Grows (l m : Ledger) : Prop := l.Keeps m ∨ ∃ b, l.Gains b m ∧ b.BuiltOn l.tip

/-- As the ledger grows, a block that was built on the tip becomes too low. -/
theorem Block.SoundOn.grows {b : Block} {l m : Ledger} (h : b.SoundOn l.tip) (hgrows : l.Grows m) :
    b.SoundOn m.tip := by
  rcases hgrows with hkeeps | ⟨c, hgains, hbuilt⟩
  · rw [hkeeps.tip_eq]
    exact h
  · rw [hgains.tip_eq]
    refine Or.inr ?_
    rcases h with hb | hle
    · rw [hb.height, hbuilt.height]
      exact UInt64.le_refl _
    · exact UInt64.le_of_lt (UInt64.lt_of_le_of_lt hle hgains.lt)

namespace Replica

/-! ### What a replica may add -/

/-- The candidate, if there is one, leaves no gap above the tip. -/
def Sound (r : Replica) (tip : Block) : Prop := ∀ c, r.pending = some c → c.block.SoundOn tip

variable {r : Replica}

theorem sound_of_pending_eq_none {tip : Block} (h : r.pending = none) : r.Sound tip := fun c hc => by
  rw [h] at hc
  cases hc

theorem Sound.ensureCandidate (h : r.Sound r.ledger.tip) : r.ensureCandidate.Sound r.ledger.tip := by
  obtain heq | ⟨-, n, heq⟩ := r.ensureCandidate_cases
  · rw [heq]
    exact h
  · rw [heq]
    have hassembled := r.assembled n
    generalize r.assemble n = x at hassembled
    cases hassembled with
    | few e => exact h
    | noBlock hle => exact h
    | taken b hle hok =>
      intro c hc
      cases hc
      exact Or.inl (candidate_builtOn hok).1

theorem Sound.consider (h : r.Sound r.ledger.tip) (b : Block) :
    r.ledger.Grows (r.consider b).2.ledger ∧ (r.consider b).2.Sound r.ledger.tip := by
  have hconsidered := r.considered b
  generalize r.consider b = x at hconsidered
  cases hconsidered with
  | noCandidate hnone =>
    refine ⟨Or.inl ?_, h.ensureCandidate⟩
    rw [ledger_ensureCandidate]
    exact Ledger.Keeps.refl _
  | gained c m hpending hagrees hgains =>
    have hb : b.SoundOn r.ledger.tip := (h.ensureCandidate c hpending).of_agrees hagrees
    exact ⟨Or.inr ⟨b, hgains, hb.builtOn hgains⟩, sound_of_pending_eq_none rfl⟩
  | refused c m hpending hkeeps => exact ⟨Or.inl hkeeps, sound_of_pending_eq_none rfl⟩

/-- A command makes the ledger grow by a block built on the tip at most, if the replica's own proposals
leave no gap. -/
theorem Sound.deliver (h : r.Sound r.ledger.tip) (delivery : Delivery) {command : Bytes}
    (hown : ∀ b, Message.decode command = .ok (.proposal r.id b) → b.SoundOn r.ledger.tip) (stamp : Stamp)
    (nodes : Nat) :
    r.ledger.Grows (r.deliver delivery command stamp nodes).2.ledger ∧
      (r.deliver delivery command stamp nodes).2.Sound r.ledger.tip := by
  have hkeeps := Ledger.Keeps.refl r.ledger
  have hdelivered := r.delivered delivery command stamp nodes
  generalize r.deliver delivery command stamp nodes = x at hdelivered
  cases hdelivered with
  | idle reply hno => exact ⟨Or.inl hkeeps, h⟩
  | queued ts reply hno => exact ⟨Or.inl hkeeps, h⟩
  | known b hok hother hagrees => exact ⟨Or.inl hkeeps, h⟩
  | own b hok hleads =>
    refine ⟨Or.inl hkeeps, fun c hc => ?_⟩
    cases hc
    exact (hown b hok).restamp _ _
  | considered b hok hother hnew =>
    have hobserve : (r.observe stamp.leader).Sound (r.observe stamp.leader).ledger.tip := h
    exact hobserve.consider _

/-- The block that an attempt to propose submits. -/
def Opening.block? : Opening → Option Block
  | submit (.proposal _ b) => some b
  | _ => none

theorem Sound.openProposal (h : r.Sound r.ledger.tip) :
    r.ledger.Keeps r.openProposal.2.ledger ∧ r.openProposal.2.Sound r.ledger.tip ∧
      ∀ b, r.openProposal.1.block? = some b → b.SoundOn r.ledger.tip := by
  have hkeeps := Ledger.Keeps.refl r.ledger
  have hopened := r.opened
  generalize r.openProposal = x at hopened
  cases hopened with
  | idle outcome hno => exact ⟨hkeeps, h, fun b hb => by cases hb⟩
  | noBlock outcome hno hle => exact ⟨hkeeps, h, fun b hb => by cases hb⟩
  | proposed b hnone hle hok =>
    have hb : b.SoundOn r.ledger.tip := Or.inl (candidate_builtOn hok).1
    refine ⟨hkeeps, fun c hc => ?_, fun c hc => ?_⟩
    · cases hc
      exact hb
    · cases hc
      exact hb

theorem Sound.settleProposal (h : r.Sound r.ledger.tip) (answer : Except SubstrateError Bytes) :
    r.ledger.Grows (r.settleProposal answer).2.ledger ∧ (r.settleProposal answer).2.Sound r.ledger.tip := by
  have hsettled := r.settled answer
  generalize r.settleProposal answer = x at hsettled
  cases hsettled with
  | noCandidate hnone => exact ⟨Or.inl (Ledger.Keeps.refl _), h⟩
  | committed c m hpending haccepts hstamped hgains =>
    exact ⟨Or.inr ⟨_, hgains, (h c hpending).builtOn hgains⟩, sound_of_pending_eq_none rfl⟩
  | refused c m n hpending hkeeps => exact ⟨Or.inl hkeeps, sound_of_pending_eq_none rfl⟩

end Replica

/-! ### Sessions -/

/-- A replica, and the blocks of its own proposals that are under way. -/
structure Session where
  replica : Replica
  running : List Block

namespace Session

/-- One step of a session. -/
inductive Step : Session → Session → Prop where
  /-- A command is delivered; if it is a proposal of the replica itself, then one that is under way. -/
  | deliver (s : Session) (delivery : Delivery) (command : Bytes) (stamp : Stamp) (nodes : Nat)
      (own : ∀ b, Message.decode command = .ok (.proposal s.replica.id b) →
        ∃ p ∈ s.running, command = (Message.proposal s.replica.id p).encode) :
      Step s { s with replica := (s.replica.deliver delivery command stamp nodes).2 }
  /-- The replica begins to propose. -/
  | propose (s : Session) :
      Step s ⟨s.replica.openProposal.2, s.replica.openProposal.1.block?.toList ++ s.running⟩
  /-- The replica ends a proposal, with any answer to it. -/
  | settle (s : Session) (p : Block) (under : p ∈ s.running) (answer : Except SubstrateError Bytes) :
      Step s ⟨(s.replica.settleProposal answer).2, s.running.erase p⟩

/-- The tip and the blocks under way have records that fit. -/
structure Fits (s : Session) : Prop where
  tip : Wire.FitsSize (1 + s.replica.ledger.tip.encode.length)
  running : ∀ p ∈ s.running, Wire.FitsSize (1 + p.encode.length)

/-- The sessions that come of a replica, as long as all records fit. -/
inductive Reachable (r : Replica) : Session → Prop where
  | start : Reachable r ⟨r, []⟩
  | next {s t : Session} (reachable : Reachable r s) (step : Step s t) (fits : t.Fits) : Reachable r t

/-- The chain is valid and coherent, and neither the candidate nor a block under way leaves a gap above
it. -/
structure Whole (s : Session) : Prop where
  leadsOn : s.replica.ledger.store.naming.LeadsOn
  coherent : s.replica.ledger.Coherent
  valid : s.replica.ledger.isChainValid = true
  sound : s.replica.Sound s.replica.ledger.tip
  running : ∀ p ∈ s.running, p.SoundOn s.replica.ledger.tip ∧ Wire.FitsSize (1 + p.encode.length)

/-- **One step** makes the ledger grow by a block built on its tip at most, and what may be added later
leaves no gap above the tip that was. -/
theorem Whole.grows {s t : Session} (h : s.Whole) (hstep : Step s t) :
    s.replica.ledger.Grows t.replica.ledger ∧ t.replica.Sound s.replica.ledger.tip ∧
      ∀ p ∈ t.running, p.SoundOn s.replica.ledger.tip := by
  have hrunning : ∀ p ∈ s.running, p.SoundOn s.replica.ledger.tip := fun p hp => (h.running p hp).1
  cases hstep with
  | deliver delivery command stamp nodes own =>
    have hown : ∀ b, Message.decode command = .ok (.proposal s.replica.id b) →
        b.SoundOn s.replica.ledger.tip := by
      -- the block comes back as it was proposed, since its message fits
      intro b hb
      obtain ⟨p, hp, rfl⟩ := own b hb
      have hfits : (Message.proposal s.replica.id p).Fits := (h.running p hp).2.mono (by omega)
      rw [Message.decode_encode hfits] at hb
      cases hb
      exact hrunning b hp
    obtain ⟨hgrows, hsound⟩ := h.sound.deliver delivery hown stamp nodes
    exact ⟨hgrows, hsound, hrunning⟩
  | propose =>
    obtain ⟨hkeeps, hsound, hblock⟩ := h.sound.openProposal
    refine ⟨Or.inl hkeeps, hsound, fun p hp => ?_⟩
    rcases List.mem_append.mp hp with hnew | hold
    · exact hblock p (by simpa using hnew)
    · exact hrunning p hold
  | settle p hp answer =>
    obtain ⟨hgrows, hsound⟩ := h.sound.settleProposal answer
    exact ⟨hgrows, hsound, fun q hq => hrunning q (List.mem_of_mem_erase hq)⟩

theorem Whole.step {s t : Session} (h : s.Whole) (hstep : Step s t) (hfits : t.Fits) : t.Whole := by
  obtain ⟨hgrows, hsound, hrunning⟩ := h.grows hstep
  have hlater : t.replica.Sound t.replica.ledger.tip := fun c hc => (hsound c hc).grows hgrows
  have hrunning : ∀ p ∈ t.running,
      p.SoundOn t.replica.ledger.tip ∧ Wire.FitsSize (1 + p.encode.length) := fun p hp =>
    ⟨(hrunning p hp).grows hgrows, hfits.running p hp⟩
  rcases hgrows with hkeeps | ⟨b, hgains, hbuilt⟩
  · have hvalid := h.coherent.isChainValid_keeps hkeeps h.valid
    have hcoherent := h.coherent.keeps hkeeps
    refine ⟨?_, hcoherent, hvalid, hlater, hrunning⟩
    rw [hkeeps.naming_eq]
    exact h.leadsOn
  · have hbfits : Wire.FitsSize (1 + b.encode.length) := hgains.tip_eq ▸ hfits.tip
    have hvalid := h.coherent.isChainValid_gains hgains h.leadsOn hbfits hbuilt h.valid
    have hcoherent := h.coherent.gains hgains h.leadsOn hbfits
    refine ⟨?_, hcoherent, hvalid, hlater, hrunning⟩
    rw [hgains.naming_eq]
    exact h.leadsOn

instance (s : Session) : Decidable s.Fits :=
  decidable_of_iff (Wire.FitsSize (1 + s.replica.ledger.tip.encode.length) ∧
      ∀ p ∈ s.running, Wire.FitsSize (1 + p.encode.length)) ⟨fun h => ⟨h.1, h.2⟩, fun h => ⟨h.1, h.2⟩⟩

/-- The session in which a transaction is queued. -/
def queued (r : Replica) (t : Transaction) : Session :=
  ⟨(r.deliver .ordered (Message.client (.add t.encode)).encode ⟨0, [], r.id⟩ 1).2, []⟩

/-- The session in which the replica then proposes the block. -/
def proposed (r : Replica) (t : Transaction) (b : Block) : Session :=
  ⟨(queued r t).replica.openProposal.2, [b]⟩

/-- The session in which the proposal then comes back. -/
def returned (r : Replica) (t : Transaction) (b : Block) : Session :=
  let r := (proposed r t b).replica
  ⟨(r.deliver .ordered (Message.proposal r.id b).encode ⟨1, [1], r.id⟩ 1).2, [b]⟩

end Session

end ReplicatedLedger
