import HydroxKernel.Util.ArrayDeque

/-!
# The Read Queue of a Terminal

`TtyReadQueue` stands between a device that pushes bytes and callers that read them. Bytes
that nobody waits for go to a ring buffer; a read that the ring buffer cannot fill becomes a
request, and bytes that are pushed go to the requests first.

A call of `read` is named by its number. What the caller sees of it is the buffer it passed,
where `none` is a byte that has not been written, and the result of its future. `pushed` and
`accepted` are ledgers: all data that was pushed, and whether every push returned `true`.
-/

namespace HydroxKernel.Tty

variable {N : ℕ}

/-- The panics of the read queue. -/
inductive Panic
  /-- A panic of the ring buffer. -/
  | deque (why : ArrayDequePanic)
  /-- A range of a slice is out of bounds. -/
  | sliceRange
  /-- The `assert!` of `complete`. -/
  | notFull
  /-- The loop of `push_bytes` does not end. -/
  | diverged
  deriving DecidableEq

/-- `TtyReadRequest`: the call whose future and buffer it holds, the length of that buffer, and
how much of it is filled. -/
structure Request where
  id : ℕ
  len : ℕ
  pos : ℕ
  deriving DecidableEq

/-- `TtyReadQueue`. -/
structure TtyReadQueue (N : ℕ) where
  buf : ArrayDeque UInt8 N
  requests : List Request

/-- A call of `read`, as its caller sees it. -/
structure Read where
  bytes : List (Option UInt8)
  result : Option (Except Unit ℕ)
  deriving DecidableEq

/-- The queue and the calls of `read` so far, with the ledgers. -/
structure State (N : ℕ) where
  queue : TtyReadQueue N
  reads : List Read
  pushed : List UInt8
  accepted : Bool

/-- `TtyReadQueue::new`, before any call. -/
def State.new : State N := ⟨⟨.new, []⟩, [], [], true⟩

/-- `usize::saturating_add`. -/
def saturatingAdd (a b : ℕ) : ℕ := min (a + b) (2 ^ 64 - 1)

/-- `copy_from_slice` into a buffer. -/
def writeSlice (bytes : List (Option UInt8)) (start : ℕ) (data : List UInt8) :
    List (Option UInt8) :=
  bytes.take start ++ data.map some ++ bytes.drop (start + data.length)

/-- Writes to the buffer of a call. -/
def State.write (s : State N) (id start : ℕ) (data : List UInt8) : State N :=
  { s with reads := s.reads.modify id fun r => { r with bytes := writeSlice r.bytes start data } }

/-- `FutureWriter::finish`, on the future of a call. -/
def State.finish (s : State N) (id : ℕ) (result : Except Unit ℕ) : State N :=
  { s with reads := s.reads.modify id fun r => { r with result := some result } }

/-- `TtyReadRequest::cancel`. -/
def State.cancel (s : State N) (request : Request) : State N :=
  s.finish request.id (if 0 < request.pos then .ok request.pos else .error ())

/-- `TtyReadRequest::complete`. -/
def State.complete (s : State N) (request : Request) : Except Panic (State N) := do
  ensure (request.pos = request.len) .notFull
  return s.cancel request

/-- The queue with other requests. -/
def State.setRequests (s : State N) (requests : List Request) : State N :=
  { s with queue := { s.queue with requests := requests } }

/-- The queue with another ring buffer. -/
def State.setBuf (s : State N) (buf : ArrayDeque UInt8 N) : State N :=
  { s with queue := { s.queue with buf := buf } }

/-- `TtyReadQueue::has_room`. -/
def State.hasRoom (s : State N) (size : ℕ) : Bool :=
  decide (size < N) && decide (size ≤ N - s.queue.buf.len)

/-- The body of the loop of `push_bytes` with a request at the front. Returns the data that is
left. -/
def State.serve (s : State N) (request : Request) (rest : List Request) (data : List UInt8) :
    Except Panic (State N × List UInt8) := do
  let copyBegin := request.pos
  let copyEnd := min (saturatingAdd copyBegin data.length) request.len
  ensure (copyBegin ≤ copyEnd) .sliceRange
  let copyLen := copyEnd - copyBegin
  let s := s.write request.id copyBegin (data.take copyLen)
  if copyEnd = request.len then do
    let s ← (s.setRequests rest).complete { request with pos := copyEnd }
    return (s, data.drop copyLen)
  else return (s.setRequests ({ request with pos := copyEnd } :: rest), data.drop copyLen)

/-- The body of the loop of `push_bytes` without requests: pushes the bytes to the ring buffer
until one does not fit. -/
def pushAll (buf : ArrayDeque UInt8 N) : List UInt8 → Except Panic (Bool × ArrayDeque UInt8 N)
  | [] => .ok (true, buf)
  | byte :: data =>
      match buf.pushBack byte with
      | .error why => .error (.deque why)
      | .ok (false, buf) => .ok (false, buf)
      | .ok (true, buf) => pushAll buf data

/-- The loop of `push_bytes`, for a number of turns. -/
def pushLoop : ℕ → State N → List UInt8 → Except Panic (Bool × State N)
  | 0, _, _ => .error .diverged
  | fuel + 1, s, data =>
      if data = [] then .ok (true, s)
      else
        match s.queue.requests with
        | request :: rest => do
            let (s, data) ← s.serve request rest data
            pushLoop fuel s data
        | [] => do
            let (all, buf) ← pushAll s.queue.buf data
            return (all, s.setBuf buf)

/-- `TtyReadQueue::push_bytes`. Every turn of its loop but the last takes a byte or removes a
request. -/
def State.pushBytes (s : State N) (data : List UInt8) : Except Panic (Bool × State N) :=
  pushLoop (data.length + s.queue.requests.length + 1) s data

/-- The loop of `read`: fills `bytes` from `pos` on, for a number of turns. -/
def readLoop : ℕ → ArrayDeque UInt8 N → List (Option UInt8) → ℕ →
    Except Panic (ArrayDeque UInt8 N × List (Option UInt8) × ℕ)
  | 0, buf, bytes, pos => .ok (buf, bytes, pos)
  | fuel + 1, buf, bytes, pos =>
      if pos < bytes.length then
        match buf.popFront with
        | .error why => .error (.deque why)
        | .ok (some b, buf) => readLoop fuel buf (writeSlice bytes pos [b]) (pos + 1)
        | .ok (none, buf) => .ok (buf, bytes, pos)
      else .ok (buf, bytes, pos)

/-- `TtyReadQueue::read` into a buffer of length `len`. Every turn of its loop but the last
fills a byte. -/
def State.read (s : State N) (len : ℕ) : Except Panic (State N) := do
  let (buf, bytes, pos) ← readLoop (len + 1) s.queue.buf (List.replicate len none) 0
  let s := s.setBuf buf
  if pos < bytes.length then
    return { s.setRequests (s.queue.requests ++ [⟨s.reads.length, bytes.length, pos⟩]) with
      reads := s.reads ++ [⟨bytes, none⟩] }
  else return { s with reads := s.reads ++ [⟨bytes, some (.ok pos)⟩] }

/-- The calls of the queue. -/
inductive Op
  | push (data : List UInt8)
  | read (len : ℕ)

/-- Performs a call. A push goes into the ledgers. -/
def perform (s : State N) : Op → Except Panic (State N)
  | .push data => do
      let (all, s) ← s.pushBytes data
      return { s with pushed := s.pushed ++ data, accepted := s.accepted && all }
  | .read len => s.read len

/-- A step. The length of a buffer fits into a `usize`. -/
def Step (s : State N) (op : Op) (t : State N) : Prop :=
  (∀ len, op = .read len → len < 2 ^ 64) ∧ perform s op = .ok t

end HydroxKernel.Tty
