import BoundaryHeap.Fault

/-!
# Events

What the allocator tells an observer while it works. An event is data; its line of text is made
only for those who want to see it. Observers pick a level and see the events that are at least as
severe.
-/

set_option autoImplicit false

namespace BoundaryHeap

/-- How severe an event is, the most severe first. -/
inductive Level where
  | error | warn | info | debug | trace
deriving DecidableEq

namespace Level

def rank : Level → Nat
  | error => 1
  | warn => 2
  | info => 3
  | debug => 4
  | trace => 5

/-- The level as a line of the log starts with it. -/
def label : Level → String
  | error => "ERROR"
  | warn => "WARN"
  | info => "INFO"
  | debug => "DEBUG"
  | trace => "TRACE"

/-- Whether an observer at `threshold` sees events of level `l`. -/
def seenAt (threshold l : Level) : Bool :=
  l.rank ≤ threshold.rank

end Level

/-- Something that happened, with the numbers that tell it. -/
inductive Event where
  | arenaReserved (reserved : Nat)
  | arenaExtended (oldBrk newBrk : Nat)
  | arenaReleased (brk reserved : Nat)
  | heapInitialised (reserved chunk size : Nat)
  | heapExtended (bytes size : Nat)
  | heapTornDown (allocations releases : Nat)
  | allocationFailed (size : Nat) (cause : ArenaError)
  | blockAllocated (size blockSize : Nat) (p : Nat)
  | blockReleased (p merged : Nat)
  | blockMoved (source target : Nat) (copied : Nat)
  /-- The opening line of a dump: the offset of the last byte, unless there is none. -/
  | dumpOpened (last : Option Nat)
  /-- One block of a dump, with the two words of its links if they mean links. -/
  | blockDumped (p : Nat) (header footer : Tag) (links : Option (Nat × Nat))
  | dumpClosed (p : Nat)
  | violationFound (severity : Level) (v : Violation)
  | setupFailed (cause : HeapError)
  | requestFailed
  | pairAllocated (p q : Nat)
  | finished (heapSize freeBytes : Nat)
deriving DecidableEq

namespace Event

def level : Event → Level
  | setupFailed _ | requestFailed => .error
  | violationFound severity _ => severity
  | dumpOpened _ | blockDumped .. | dumpClosed _ | pairAllocated .. | finished .. => .info
  | arenaReserved _ | arenaReleased .. | heapInitialised .. | heapExtended .. | heapTornDown ..
  | allocationFailed .. => .debug
  | arenaExtended .. | blockAllocated .. | blockReleased .. | blockMoved .. => .trace

def message : Event → String
  | arenaReserved reserved => s!"arena reserved reserved={reserved}"
  | arenaExtended oldBrk newBrk => s!"arena extended old_brk={oldBrk} new_brk={newBrk}"
  | arenaReleased brk reserved => s!"arena released brk={brk} reserved={reserved}"
  | heapInitialised reserved chunk size =>
    s!"heap initialised reserved={reserved} chunk_size={chunk} heap_size={size}"
  | heapExtended bytes size => s!"heap extended bytes={bytes} heap_size={size}"
  | heapTornDown allocations releases =>
    s!"heap torn down allocations={allocations} releases={releases}"
  | allocationFailed size cause => s!"allocation failed size={size} error=" ++ cause.text
  | blockAllocated size blockSize p =>
    s!"allocate size={size} block_size={blockSize} payload=" ++ Text.handle p
  | blockReleased p merged => "release payload=" ++ Text.handle p ++ " merged=" ++ Text.handle merged
  | blockMoved source target copied =>
    "resize from=" ++ Text.handle source ++ " to=" ++ Text.handle target ++ s!" copied={copied}"
  | dumpOpened (some last) => "heap (0x0..=" ++ Text.hex last ++ "):"
  | dumpOpened none => "heap (0x0): empty"
  | blockDumped p header footer links =>
    let shown := match links with
      | some (prev, next) => Text.hex prev ++ "|" ++ Text.hex next
      | none => ""
    Text.handle p ++ ": header: " ++ header.text ++ " \x7b" ++ shown ++ "\x7d footer: " ++ footer.text
  | dumpClosed p => Text.handle p ++ ": EOL"
  | violationFound _ v => "heap check violation=" ++ v.text
  | setupFailed cause => "init failed error=" ++ cause.text
  | requestFailed => "allocate failed"
  | pairAllocated p q => "allocated p=" ++ Text.handle p ++ " q=" ++ Text.handle q
  | finished heapSize freeBytes => s!"done heap_size={heapSize} free_bytes={freeBytes}"

def line (e : Event) : String :=
  e.level.label ++ " " ++ e.message

end Event

/-- The lines that an observer at `threshold` sees of some events. -/
def logLines (threshold : Level) (events : List Event) : List String :=
  (events.filter fun e => threshold.seenAt e.level).map Event.line

end BoundaryHeap
