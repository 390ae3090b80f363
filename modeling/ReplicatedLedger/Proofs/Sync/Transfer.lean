import ReplicatedLedger.Proofs.Ledger.Contents
import ReplicatedLedger.Sync.Leader

/-! # Which blocks a transfer brings

A server sends records of blocks that it reads from its store, so a client stores no others
(`holdsOnly_receiveDown`), whatever range it asked for and wherever the transfer ends. What is fetched from the
leader comes from who listens at its address (`Client.holdsOnly_fromLeader`). -/

namespace ReplicatedLedger.Sync

variable {P : Block → Prop} {s t : Store}

/-! ### Ranges -/

/-- Whatever is asked for, the answer is made of the blocks of a range. -/
theorem exists_serveDown (s : Store) (request : Bytes) :
    ∃ bottom n, (serve s request).2 = (serveDown s bottom n).2 := by
  unfold serve
  split_ifs
  · exact ⟨0, 0, rfl⟩
  · dsimp only
    split_ifs
    · exact ⟨0, 0, rfl⟩
    · exact ⟨_, _, rfl⟩

/-- **What is received** from a server are blocks of its store. -/
theorem holdsOnly_receiveDown (hs : s.dir.HoldsOnly P) (ht : t.dir.HoldsOnly P) (bottom n bottom' n' : Nat) :
    (receiveDown bottom n s (serveDown t bottom' n').2).2.dir.HoldsOnly P := by
  -- on the records that the client still waits for; the server may stop at any of them, or send more
  induction n generalizing s n' with
  | zero => exact hs
  | succ n ih =>
    cases n' with
    | zero =>
      simp only [receiveDown, serveDown, Block.Record.read_nil]
      exact hs
    | succ n' =>
      cases hread : t.read (bottom' + n').toUInt64 with
      | error e =>
        simp only [receiveDown, serveDown, hread, Block.Record.read_marker]
        exact hs
      | ok b =>
        obtain ⟨content, -, hdecode, -⟩ := Store.read_eq_ok_iff.mp hread
        simp only [receiveDown, serveDown, hread, Block.Record.read_encode (Block.Record.fits_of_decode hdecode).1]
        by_cases hlong : Block.Record.maxLength < 1 + b.encode.length
        · rw [if_pos hlong]
          exact hs
        · rw [if_neg hlong]
          dsimp only
          split_ifs
          · exact hs
          · have hwritten := Store.holdsOnly_write hs (Store.holdsOnly_read ht hread)
            cases hw : s.write b with
            | mk result s' =>
              rw [hw] at hwritten
              cases result with
              | error e => exact hwritten
              | ok u => exact ih hwritten n'

/-- All that is answered comes from stores that hold only blocks with the property. -/
def Listener.ServesOnly (P : Block → Prop) (answer : Listener) : Prop :=
  ∀ request, ∃ t : Store, t.dir.HoldsOnly P ∧ answer request = (serve t request).2

theorem holdsOnly_fetch {listener : Except IoError Listener} (hs : s.dir.HoldsOnly P)
    (hlistener : ∀ answer, listener = .ok answer → answer.ServesOnly P) (patience : Option Nat) (bottom top : UInt64) :
    (fetch s listener patience bottom top).store.dir.HoldsOnly P := by
  unfold fetch
  cases listener with
  | error e => split_ifs <;> exact hs
  | ok answer =>
    dsimp only
    split_ifs
    · exact hs
    · exact hs
    · obtain ⟨t, ht, hanswer⟩ := hlistener answer rfl (request bottom top)
      obtain ⟨bottom', n, hserve⟩ := exists_serveDown t (request bottom top)
      rw [hanswer, hserve]
      exact holdsOnly_receiveDown hs ht _ _ _ _
    · exact hs

/-! ### Fetching from the leader -/

section

variable {σ : Type} [Queryable σ]

/-- To find out the height of its tip nothing is done but to ask the leader. -/
theorem leaderTip_invariant {I : σ → Prop} (hask : ∀ net command, I net → I (Queryable.ask net command).2) {net : σ}
    (h : I net) : I (leaderTip net).2 := by
  have hquery : ∀ net request, I net → I (query net request).2 := by
    intro net request hnet
    have hasked := hask net (Message.client request).encode hnet
    unfold query
    cases hanswer : Queryable.ask net (Message.client request).encode with
    | mk answer net' =>
      rw [hanswer] at hasked
      cases answer <;> exact hasked
  have hleader := hquery net .leader h
  unfold leaderTip
  cases hfirst : query net .leader with
  | mk result net' =>
    rw [hfirst] at hleader
    have hheight := hquery net' .height hleader
    split
    · rename_i heq
      cases heq
      exact hleader
    · rename_i heq
      cases heq
      cases hsecond : query net' .height with
      | mk result' net'' =>
        rw [hsecond] at hheight
        split <;> rename_i heq' <;> cases heq' <;> exact hheight
    · rename_i heq
      cases heq
      exact hleader

/-- On the way nothing but the leader is asked. -/
theorem Client.net_fromLeader (c : Client) (net : σ) (listener : σ → String → Except IoError Listener) (s : Store)
    (bottom : UInt64) : (c.fromLeader net listener s bottom).2 = (leaderTip net).2 := by
  unfold Client.fromLeader
  cases leaderTip net with
  | mk result net' =>
    cases result with
    | error e => rfl
    | ok found =>
      dsimp only
      cases c.address (Queryable.view net') found.1 with
      | error e => rfl
      | ok address =>
        dsimp only
        split_ifs <;> rfl

/-- **What is fetched from the leader** comes from who listens. -/
theorem Client.holdsOnly_fromLeader (c : Client) (net : σ) (listener : σ → String → Except IoError Listener)
    (hs : s.dir.HoldsOnly P)
    (hlistener : ∀ address answer, listener (leaderTip net).2 address = .ok answer → answer.ServesOnly P)
    (bottom : UInt64) : (c.fromLeader net listener s bottom).1.store.dir.HoldsOnly P := by
  unfold Client.fromLeader
  cases hfound : leaderTip net with
  | mk result net' =>
    rw [hfound] at hlistener
    cases result with
    | error e => exact hs
    | ok found =>
      dsimp only
      cases c.address (Queryable.view net') found.1 with
      | error e => exact hs
      | ok address =>
        dsimp only
        split_ifs
        · exact hs
        · exact holdsOnly_fetch hs (hlistener address) _ _ _

end

end ReplicatedLedger.Sync
