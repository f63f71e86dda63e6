/-
# Plexus.Stream.StreamChannel — the egress side of a stream channel, plain and serial.

`stream/detail/send_queue.h`, `stream/crc_serial.h` (the trailer), `wire/crc32c.h`,
`asio/detail/plaintext_bootstrap.h`, `asio/detail/serial_bootstrap.h`,
`asio/detail/stream_channel_io.h` and the send path of `asio/stream_channel.h`.

A queue of owned nodes feeds one gather-write at a time; the front nodes stay until it completes. A
cap bounds the backlog, but an empty queue takes one unit of any size. A plain channel queues a
frame as one node, a serial one the frame and its trailer as one unit, both or neither.
-/
import Plexus.Io.Fragmentation
import Plexus.Io.Qos
import Plexus.Wire.Frame

namespace Plexus.Stream

open Io Wire

/-! ## `stream/detail/send_queue.h` -/

/-- The bytes of a list of nodes. -/
def totalSize (nodes : List Bytes) : Nat := (nodes.map List.length).sum

theorem totalSize_nil : 0 = totalSize [] := rfl

@[simp] theorem totalSize_append (xs ys : List Bytes) :
    totalSize (xs ++ ys) = totalSize xs + totalSize ys := by
  simp [totalSize]

/-- The queue; the kept byte total is the size of its nodes. -/
structure SendQueue where
  byteCap : Nat
  gatherLimit : Nat := 64
  queue : List Bytes := []
  inFlight : Nat := 0
  bytes : Nat := 0
  isOpen : Bool := true
  sending : Bool := false
  bytes_eq : bytes = totalSize queue := by rfl
  deriving DecidableEq

namespace SendQueue

variable (q : SendQueue)

def admits (size : Nat) : Bool :=
  q.bytes = 0 || (q.bytes < q.byteCap && size ≤ q.byteCap - q.bytes)

/-- Several nodes behind the resident ones. -/
def stash (nodes : List Bytes) : SendQueue :=
  { q with
    queue := q.queue ++ nodes
    bytes := q.bytes + totalSize nodes
    bytes_eq := by rw [totalSize_append, q.bytes_eq] }

/-- `drive`: the write it issues gathers the front `inFlight` nodes. -/
def drive : SendQueue :=
  if q.queue.isEmpty then { q with sending := false }
  else { q with sending := true, inFlight := min q.gatherLimit q.queue.length }

/-- The completion of the write in flight. -/
def complete : SendQueue :=
  if !q.isOpen then q
  else
    drive
      { q with
        queue := q.queue.drop q.inFlight
        bytes := q.bytes - totalSize (q.queue.take q.inFlight)
        bytes_eq := by
          have hsplit := congrArg totalSize (List.take_append_drop q.inFlight q.queue)
          rw [totalSize_append, ← q.bytes_eq] at hsplit
          omega }

/-- One unit of nodes, admitted by their summed size: `enqueue` has one node, `enqueue_both` two. -/
def enqueueUnit (nodes : List Bytes) : Option SendQueue :=
  if !q.admits (totalSize nodes) then none
  else
    let q := q.stash nodes
    some (if q.sending then q else q.drive)

def enqueue (frame : Bytes) : Option SendQueue := q.enqueueUnit [frame]

def enqueueBoth (payload trailer : Bytes) : Option SendQueue :=
  q.enqueueUnit [payload, trailer]

/-- An admitted unit is at the end of the queue, and the cap is what it was. -/
theorem enqueueUnit_spec {q q' : SendQueue} {nodes : List Bytes}
    (h : q.enqueueUnit nodes = some q') :
    q'.queue = q.queue ++ nodes ∧ q'.byteCap = q.byteCap := by
  unfold enqueueUnit at h
  split at h
  · cases h
  obtain rfl := Option.some.inj h
  split
  · exact ⟨rfl, rfl⟩
  · unfold drive
    split <;> exact ⟨rfl, rfl⟩

theorem enqueueUnit_isSome (nodes : List Bytes) :
    (q.enqueueUnit nodes).isSome = q.admits (totalSize nodes) := by
  unfold enqueueUnit
  cases q.admits (totalSize nodes) <;> rfl

end SendQueue

/-! ## The checksum trailer -/

def kCrc32cPolyReflected : UInt32 := 0x82F63B78

/-- One entry of `build_crc32c_table`. -/
def crc32cTable (n : UInt32) : UInt32 :=
  (List.range 8).foldl
    (fun c _ => if c &&& 1 ≠ 0 then kCrc32cPolyReflected ^^^ (c >>> 1) else c >>> 1) n

def crc32c (data : Bytes) (seed : UInt32 := 0) : UInt32 :=
  ~~~ data.foldl (fun crc b => crc32cTable ((crc ^^^ b.toUInt32) &&& 0xFF) ^^^ (crc >>> 8)) (~~~ seed)

def crcTrailerSize : Nat := 4

/-- The trailer is little-endian. -/
def crcTrailer (header payload : Bytes) : Bytes :=
  let crc := crc32c payload (crc32c header)
  [crc.toUInt8, (crc >>> 8).toUInt8, (crc >>> 16).toUInt8, (crc >>> 24).toUInt8]

/-- The check value of the algorithm, over the digits one to nine. -/
example : crc32c [0x31, 0x32, 0x33, 0x34, 0x35, 0x36, 0x37, 0x38, 0x39] = 0xE3069283 := by
  decide +kernel

/-! ## The channel -/

/-- The two open paths a banded stream channel has. -/
inductive Bootstrap
  | plaintext | serial
  deriving DecidableEq

namespace Bootstrap

/-- `make_trailer`; its frame starts with a header. -/
def makeTrailer (framed : Bytes) : Bytes :=
  crcTrailer (framed.take headerSize) (framed.drop headerSize)

/-- The nodes a frame is queued as. -/
def nodes : Bootstrap → Bytes → List Bytes
  | plaintext, frame => [frame]
  | serial, frame => [frame, makeTrailer frame]

/-- The bytes a channel adds to a frame. -/
def trailerSize : Bootstrap → Nat
  | plaintext => 0
  | serial => crcTrailerSize

theorem totalSize_nodes (b : Bootstrap) (frame : Bytes) :
    totalSize (b.nodes frame) = frame.length + b.trailerSize := by
  cases b <;> rfl

end Bootstrap

structure StreamChannel where
  bootstrap : Bootstrap
  congestion : Congestion
  egress : SendQueue
  dropped : Nat := 0
  isOpen : Bool := false
  errors : List IoError := []
  deriving DecidableEq

namespace StreamChannel

variable (c : StreamChannel)

def backpressured : Nat := c.egress.bytes

def writeQueueCapacity : Nat := c.egress.byteCap

/-- `stream_on_write_queue_full`. -/
def onWriteQueueFull : StreamChannel :=
  if c.congestion = .dropNewest then { c with dropped := c.dropped + 1 }
  else { c with errors := c.errors ++ [.wouldBlock] }

/-- `enqueue_egress_owned` and `enqueue_egress_pair`. -/
def enqueueEgress (queued : Option SendQueue) : StreamChannel :=
  match queued with
  | some egress => { c with egress }
  | none => c.onWriteQueueFull

/-- `submit` of the bootstrap. -/
def submit (frame : Bytes) : StreamChannel :=
  match c.bootstrap with
  | .plaintext => c.enqueueEgress (c.egress.enqueue frame)
  | .serial => c.enqueueEgress (c.egress.enqueueBoth frame (Bootstrap.makeTrailer frame))

def send (frame : Bytes) : StreamChannel :=
  if !c.isOpen then c else c.submit frame

def markOpen : StreamChannel := { c with isOpen := true }

theorem submit_eq (frame : Bytes) :
    c.submit frame = c.enqueueEgress (c.egress.enqueueUnit (c.bootstrap.nodes frame)) := by
  unfold submit
  cases c.bootstrap <;> rfl

end StreamChannel

end Plexus.Stream
