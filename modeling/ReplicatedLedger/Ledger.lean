import ReplicatedLedger.Store.Basic

/-! # Ledgers

A ledger is a store with a window of its topmost blocks in memory: the tip, and below it blocks of
consecutive heights, as many as a budget of bytes allows. The tip stays in memory whatever its size. Blocks
below the window are read from the store. -/

namespace ReplicatedLedger

/-- Why a ledger cannot be opened or reloaded. -/
inductive LedgerError where
  /-- The store failed. -/
  | store (cause : StoreError)
  /-- There was no block file and the first block could not be stored. -/
  | genesis (cause : StoreError)
  /-- There are block files, but none can be read. -/
  | noReadableBlock
  deriving DecidableEq

/-- The topmost blocks of a chain. -/
structure Ledger.Window where
  tip : Block
  /-- The blocks below the tip, highest first. -/
  older : List Block
  /-- The bytes that the blocks take. -/
  memory : Nat
  deriving DecidableEq

/-- A store with a window in memory. -/
structure Ledger where
  store : Store
  window : Ledger.Window
  /-- The bytes that the window may take. -/
  budget : Nat
  deriving DecidableEq

namespace Ledger

/-- Bytes of a window unless another budget is configured. -/
def defaultBudget : Nat := 64 * 1024 * 1024

/-! ### Loading -/

/-- Goes down from the lowest block of a window of `size` bytes through the listed heights, as long as the
next one follows, can be read and fits the budget: the blocks, and the bytes of the window with them. -/
def loadBelow (s : Store) (budget : Nat) (lowest : Block) (size : Nat) : List UInt64 → List Block × Nat
  | [] => ([], size)
  | h :: hs =>
    if h.toNat + 1 ≠ lowest.height.toNat then ([], size)
    else
      match s.read h with
      | .error _ => ([], size)
      | .ok b =>
        if size + b.size > budget then ([], size)
        else
          let (older, total) := loadBelow s budget b (size + b.size) hs
          (b :: older, total)

/-- The window from the first height that can be read, of heights listed from the highest down. -/
def loadFrom (s : Store) (budget : Nat) : List UInt64 → Option Window
  | [] => none
  | h :: hs =>
    match s.read h with
    | .error _ => loadFrom s budget hs
    | .ok tip =>
      let (older, memory) := loadBelow s budget tip tip.size hs
      some ⟨tip, older, memory⟩

/-- The window of a store. A store without block files gets the first block. -/
def load (s : Store) (budget : Nat) : Except LedgerError Window × Store :=
  match s.heights with
  | .error e => (.error (.store e), s)
  | .ok [] =>
    match s.write .genesis with
    | (.error e, s) => (.error (.genesis e), s)
    | (.ok (), s) => (.ok ⟨.genesis, [], Block.genesis.size⟩, s)
  | .ok hs =>
    match loadFrom s budget hs.reverse with
    | none => (.error .noReadableBlock, s)
    | some w => (.ok w, s)

/-- Opens the ledger with the given file names in a directory. -/
def openIn (naming : Store.Naming) (budget : Nat) (dir : Directory) :
    Except LedgerError Ledger × Directory :=
  match Store.openIn naming dir with
  | .error e => (.error (.store e), dir)
  | .ok s =>
    match load s budget with
    | (.error e, s) => (.error e, s.dir)
    | (.ok window, s) => (.ok ⟨s, window, budget⟩, s.dir)

/-- Loads the window anew; if that fails it stays as it is. -/
def reload (l : Ledger) : Except LedgerError Unit × Ledger :=
  match load l.store l.budget with
  | (.error e, store) => (.error e, { l with store })
  | (.ok window, store) => (.ok (), { l with store, window })

/-! ### Views -/

/-- The topmost block. -/
def tip (l : Ledger) : Block := l.window.tip

/-- The height of the topmost block. -/
def tipHeight (l : Ledger) : UInt64 := l.tip.height

/-- The blocks in memory, highest first. -/
def Window.blocks (w : Window) : List Block := w.tip :: w.older

/-- The block at a height, from memory or from the store; none above the tip. -/
def block? (l : Ledger) (height : UInt64) : Option Block :=
  if height > l.tipHeight then none
  else
    match l.window.blocks.find? (·.height == height) with
    | some b => some b
    | none => l.store.readable height

/-- Whether the block `b` and its `n` predecessors are there and linked. -/
def linkedFrom (l : Ledger) : Nat → Block → Bool
  | 0, _ => true
  | n + 1, b =>
    match l.block? n.toUInt64 with
    | none => false
    | some parent => b.header.previous == some parent.hash && l.linkedFrom n parent

/-- Whether all blocks from the tip to the first are there and linked. -/
def isChainValid (l : Ledger) : Bool := l.linkedFrom l.tipHeight.toNat l.tip

/-- The highest of the heights `n` to zero whose block holds the transaction, if all above it are there. -/
def findFrom (l : Ledger) (hash : Digest) : Nat → Option UInt64
  | 0 => (l.block? 0).bind fun b => if b.contains hash then some 0 else none
  | n + 1 =>
    match l.block? (n + 1).toUInt64 with
    | none => none
    | some b => if b.contains hash then some (n + 1).toUInt64 else l.findFrom hash n

/-- The height of the highest block with the transaction, if all above it are there. -/
def findTransaction (l : Ledger) (hash : Digest) : Option UInt64 := l.findFrom hash l.tipHeight.toNat

/-! ### Growth -/

/-- Drops the lowest blocks, listed from the lowest up, until the window fits the budget. -/
def evict (budget : Nat) : List Block → Nat → List Block × Nat
  | [], memory => ([], memory)
  | b :: bs, memory => if memory > budget then evict budget bs (memory - b.size) else (b :: bs, memory)

/-- The window under a new tip. Unless the tip follows the one before, the window starts anew. -/
def Window.grow (w : Window) (budget : Nat) (b : Block) : Window :=
  if b.height.toNat = w.tip.height.toNat + 1 then
    let (older, memory) := evict budget w.blocks.reverse (w.memory + b.size)
    ⟨b, older.reverse, memory⟩
  else ⟨b, [], b.size⟩

/-- Adds a block above the tip, and tells whether it could. -/
def add (l : Ledger) (b : Block) : Bool × Ledger :=
  if b.height ≤ l.tipHeight then (false, l)
  else
    match l.store.write b with
    | (.error _, store) => (false, { l with store })
    | (.ok (), store) => (true, { l with store, window := l.window.grow l.budget b })

end Ledger

end ReplicatedLedger
