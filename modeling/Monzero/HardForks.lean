import Mathlib.Algebra.Ring.Nat
import Mathlib.Data.List.Basic
import Mathlib.Logic.Function.Basic

/-!
The hard fork schedule. An entry of the table takes effect from its height on, once
enough of the last blocks voted for its version. The index of the current entry is kept
by four procedures: a vote count when a block is added, a scan of the table when blocks
are popped, a downward walk when the chain is reorganised, and a search for the stored
version when the object is set up from the database.
-/
namespace Monzero.HardForks

/-- `hardfork_t`. -/
structure Fork where
  version : UInt8
  height : ℕ
  threshold : ℕ
  time : ℕ
deriving DecidableEq, Inhabited

/-- The versions in the header of a block. -/
structure Header where
  majorVersion : UInt8
  minorVersion : UInt8
deriving DecidableEq

/-- `get_block_vote`: blocks from before the first fork have a minor version of zero. -/
def getBlockVote (b : Header) : UInt8 := if b.minorVersion = 0 then 1 else b.minorVersion

/-- What the schedule reads and writes of the database: the blocks, genesis first, and the
versions stored by height. A popped block leaves its version behind. -/
structure ForkDb where
  blocks : List Header
  hfVersions : ℕ → Option UInt8

namespace ForkDb

def height (db : ForkDb) : ℕ := db.blocks.length

/-- `get_hard_fork_version`; it throws where nothing is stored. -/
def getHardForkVersion (db : ForkDb) (height : ℕ) : Option UInt8 := db.hfVersions height

def setHardForkVersion (db : ForkDb) (height : ℕ) (version : UInt8) : ForkDb :=
  { db with hfVersions := Function.update db.hfVersions height (some version) }

end ForkDb

/-- `HardFork`. The constructor refuses an empty window. -/
structure HardFork where
  db : ForkDb
  windowSize : ℕ
  windowSize_pos : 0 < windowSize
  originalVersion : UInt8
  heights : List Fork
  /-- The votes of the last blocks, oldest first. -/
  versions : List UInt8
  /-- The number of votes for each version in the window. -/
  lastVersions : UInt8 → UInt32
  currentForkIndex : ℕ

namespace HardFork

variable (f : HardFork)

def entry (n : ℕ) : Fork := f.heights.getD n default

/-- The arguments of `add_fork` are an entry; it reports whether the entry was taken. -/
def addFork (e : Fork) : Bool × HardFork :=
  if e.version = 0 then (false, f)
  else if f.heights.getLast?.any fun last =>
      e.version ≤ last.version ∨ e.height ≤ last.height ∨ e.time ≤ last.time then (false, f)
  else if e.threshold > 100 then (false, f)
  else (true, { f with heights := f.heights ++ [e] })

/-- The entries of a table, added one after the other. -/
def addForks (entries : List Fork) : HardFork := entries.foldl (fun f e => (f.addFork e).2) f

def getEffectiveVersion (votingVersion : UInt8) : UInt8 :=
  match f.heights.getLast? with
  | none => votingVersion
  | some last => if votingVersion > last.version then last.version else votingVersion

/-- A block version and a vote against an entry of the table. -/
def matchesEntry (n : ℕ) (blockVersion votingVersion : UInt8) : Bool :=
  blockVersion = (f.entry n).version ∧ votingVersion ≥ (f.entry n).version

def doCheck (blockVersion votingVersion : UInt8) : Bool :=
  f.matchesEntry f.currentForkIndex blockVersion votingVersion

def check (b : Header) : Bool := f.doCheck b.majorVersion (getBlockVote b)

/-- The votes an entry needs. -/
def votesNeeded (e : Fork) : UInt32 :=
  UInt32.ofNat ((f.windowSize * e.threshold + 99) % 2 ^ 64 / 100)

/-- The loop of `get_voted_fork_index`, from the last entry down. -/
def votedLoop (height : ℕ) : ℕ → UInt32 → ℕ
  | 0, _ => f.currentForkIndex
  | n + 1, accumulatedVotes =>
      let votes := accumulatedVotes + f.lastVersions (f.entry n).version
      if height ≥ (f.entry n).height ∧ votes ≥ f.votesNeeded (f.entry n) then n
      else votedLoop height n votes

def getVotedForkIndex (height : ℕ) : ℕ := f.votedLoop height f.heights.length 0

def checkForHeight (b : Header) (height : ℕ) : Bool :=
  f.matchesEntry (f.getVotedForkIndex height) b.majorVersion (getBlockVote b)

/-- The current entry is only ever raised by a vote; the index passes through a byte. -/
def raiseFork (height : ℕ) : HardFork :=
  if f.getVotedForkIndex height % 256 > f.currentForkIndex then
    { f with currentForkIndex := f.getVotedForkIndex height % 256 }
  else f

def clearVotes : HardFork := { f with versions := [], lastVersions := fun _ => 0 }

def pushVote (vote : UInt8) : HardFork :=
  { f with
    versions := f.versions ++ [vote]
    lastVersions := Function.update f.lastVersions vote (f.lastVersions vote + 1) }

/-- The loop of `add` that makes room in the window. -/
def dropOldVotes (windowSize : ℕ) : List UInt8 → (UInt8 → UInt32) → List UInt8 × (UInt8 → UInt32)
  | [], counts => ([], counts)
  | old :: rest, counts =>
      if rest.length + 1 ≥ windowSize then
        dropOldVotes windowSize rest (Function.update counts old (counts old - 1))
      else (old :: rest, counts)

/-- `add`: a block of the given height that the check refuses changes nothing. -/
def add (b : Header) (height : ℕ) : Bool × HardFork :=
  if f.check b = false then (false, f)
  else
    let window := dropOldVotes f.windowSize f.versions f.lastVersions
    let kept : HardFork := { f with
      db := f.db.setHardForkVersion height (f.entry f.currentForkIndex).version
      versions := window.1
      lastVersions := window.2 }
    (true, (kept.pushVote (f.getEffectiveVersion (getBlockVote b))).raiseFork (height + 1))

/-- The votes of blocks of the chain, counted again. -/
def countVotes (blocks : List Header) : HardFork :=
  blocks.foldl (fun f b => f.pushVote (f.getEffectiveVersion (getBlockVote b))) f.clearVotes

/-- The loop of `rescan_from_block_height` over the table: the first entry with a version, or
the last entry. -/
def findVersion (version : UInt8) : List Fork → ℕ
  | [] => 0
  | [_] => 0
  | e :: rest => if e.version = version then 0 else findVersion version rest + 1

/-- `rescan_from_block_height`; `none` when the database throws. -/
def rescanFromBlockHeight (height : ℕ) : Option (Bool × HardFork) :=
  if height ≥ f.db.height then some (false, f)
  else
    match f.db.getHardForkVersion (f.db.height - 1) with
    | none => none
    | some lastVersion =>
        let counted := f.countVotes (f.db.blocks.drop height)
        let found := { counted with currentForkIndex := findVersion lastVersion f.heights }
        some (true, found.raiseFork f.db.height)

def rescanFromChainHeight (height : ℕ) : Option (Bool × HardFork) :=
  if height = 0 then some (false, f) else f.rescanFromBlockHeight (height - 1)

/-- `init`. An empty table gets an entry for the original version. -/
def init : Option HardFork :=
  let table := if f.heights = [] then [⟨f.originalVersion, 0, 0, 0⟩] else f.heights
  let cleared := { f.clearVotes with heights := table, currentForkIndex := 0 }
  let height := if f.db.height > f.windowSize then f.db.height - (f.windowSize - 1) else 1
  (cleared.rescanFromChainHeight height).map Prod.snd

/-- The loop of `reorganize_from_block_height` down the table. -/
def lowerFork (startVersion : UInt8) : ℕ → ℕ
  | 0 => 0
  | n + 1 => if (f.entry (n + 1)).version > startVersion then lowerFork startVersion n else n + 1

/-- Blocks of the chain added again, each with its height. -/
def addAll (blocks : List (Header × ℕ)) : HardFork :=
  blocks.foldl (fun f e => (f.add e.1 e.2).2) f

/-- `reorganize_from_block_height`; `none` when the database throws. -/
def reorganizeFromBlockHeight (height : ℕ) : Option (Bool × HardFork) :=
  if height ≥ f.db.height then some (false, f)
  else
    match if height = 0 then some f.originalVersion else f.db.getHardForkVersion height with
    | none => none
    | some startVersion =>
        let rescanHeight := height - (f.windowSize - 1)
        let lowered := { f with currentForkIndex := f.lowerFork startVersion f.currentForkIndex }
        let counted := lowered.countVotes ((f.db.blocks.take (height + 1)).drop rescanHeight)
        some (true,
          (counted.raiseFork (height + 1)).addAll (f.db.blocks.zipIdx.drop (height + 1)))

/-- The loop of `on_block_popped` over the popped heights, downwards. The last vote goes and the
version stored for the popped height comes in at the front. `none` when there is no vote to
take or no version stored. -/
def popVotes (newHeight : ℕ) : ℕ → HardFork → Option HardFork
  | 0, f => some f
  | k + 1, f =>
      match f.versions.getLast?, f.db.getHardForkVersion (newHeight + k) with
      | some last, some version =>
          let counts := Function.update f.lastVersions last (f.lastVersions last - 1)
          popVotes newHeight k { f with
            versions := version :: f.versions.dropLast
            lastVersions := Function.update counts version (counts version + 1) }
      | _, _ => none

/-- The last entry from an index down whose height is reached, or the first entry. -/
def reachedIndex (height : ℕ) : ℕ → ℕ
  | 0 => 0
  | n + 1 => if height ≥ (f.entry (n + 1)).height then n + 1 else reachedIndex height n

/-- `on_block_popped`, after the blocks are gone from the database. -/
def onBlockPopped (nblocks : ℕ) : Option HardFork :=
  if nblocks = 0 then none
  else (popVotes f.db.height nblocks f).map fun f =>
    { f with currentForkIndex := f.reachedIndex f.db.height (f.heights.length - 1) }

def getCurrentVersion : UInt8 := (f.entry f.currentForkIndex).version

def getIdealVersion (height : ℕ) : UInt8 :=
  match f.reachedIndex height (f.heights.length - 1) with
  | 0 => f.originalVersion
  | n + 1 => (f.entry (n + 1)).version

end HardFork

/-- The calls that change a schedule or the chain under it. -/
inductive ForkCall
  | init
  /-- A block is checked, stored and added. -/
  | addBlock (b : Header)
  /-- Blocks are popped from the database, then the schedule is told. -/
  | popBlocks (nblocks : ℕ)
  | reorganizeFromBlockHeight (height : ℕ)
  | rescanFromBlockHeight (height : ℕ)

/-- `none` when the call throws. A block that the check refuses is not stored, and the genesis
block is not popped. -/
def perform (f : HardFork) : ForkCall → Option HardFork
  | .init => f.init
  | .addBlock b =>
      if f.check b then
        some (({ f with db := { f.db with blocks := f.db.blocks ++ [b] } } : HardFork).add b
          f.db.height).2
      else some f
  | .popBlocks nblocks =>
      if nblocks = 0 ∨ nblocks ≥ f.db.height then some f
      else ({ f with db := { f.db with
        blocks := f.db.blocks.take (f.db.height - nblocks) } } : HardFork).onBlockPopped nblocks
  | .reorganizeFromBlockHeight height => (f.reorganizeFromBlockHeight height).map Prod.snd
  | .rescanFromBlockHeight height => (f.rescanFromBlockHeight height).map Prod.snd

/-- The calls of a run, one after the other. -/
def performAll (f : HardFork) : List ForkCall → Option HardFork
  | [] => some f
  | call :: rest => (perform f call).bind fun f => performAll f rest

/-- `mainnet_hard_forks`: a version for each of the first heights, without votes. The tables of
the other networks are the same. -/
def mainnetHardForks : List Fork :=
  [⟨1, 1, 0, 1⟩, ⟨2, 2, 0, 2⟩, ⟨3, 3, 0, 3⟩, ⟨4, 4, 0, 4⟩, ⟨5, 5, 0, 5⟩, ⟨6, 6, 0, 6⟩,
    ⟨7, 7, 0, 7⟩, ⟨8, 8, 0, 8⟩, ⟨9, 9, 0, 9⟩, ⟨10, 10, 0, 10⟩, ⟨11, 11, 0, 11⟩,
    ⟨12, 12, 0, 12⟩, ⟨13, 13, 0, 13⟩, ⟨14, 14, 0, 14⟩, ⟨15, 15, 0, 15⟩, ⟨16, 16, 0, 16⟩]

/-- A schedule as the constructor leaves it, over a database. -/
def newHardFork (db : ForkDb) (windowSize : ℕ) (hpos : 0 < windowSize)
    (originalVersion : UInt8) : HardFork where
  db := db
  windowSize := windowSize
  windowSize_pos := hpos
  originalVersion := originalVersion
  heights := []
  versions := []
  lastVersions := fun _ => 0
  currentForkIndex := 0

end Monzero.HardForks
