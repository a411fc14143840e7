import Xv6.RingBuffer
import Xv6.Transition

/-!
# The disk driver

`virtio_disk_rw` and `virtio_disk_intr` of `kernel/virtio_disk.c` with the functions for
descriptors, and the device they talk to. Driver code runs under `vdisk_lock`; it is cut where the
device can come between, so the device may move at every step. The device takes chain heads from the
avail ring in order, serves those it has taken in any order, and puts the heads into the used ring.
It finds the buffer, the sector and the place for the status in the descriptors.

A caller has the buffer locked, so no two calls are for one buffer. `ticket` numbers the calls and
`done` says which of them the device has completed; both are history.
-/

namespace Xv6.Virtio

open Transition RingBuffer Function

def num : ℕ := 8

def fNext : ℕ := 1

def fWrite : ℕ := 2

def blkIn : ℕ := 0

def blkOut : ℕ := 1

/-- What a descriptor points to: `disk.ops[i]`, `b->data` or `disk.info[i].status`. -/
inductive Addr (B : Type)
  | null
  | op (i : ℕ)
  | data (b : B)
  | status (i : ℕ)
  deriving DecidableEq

structure Desc (B : Type) where
  addr : Addr B
  len : ℕ
  flags : ℕ
  next : ℕ

/-- `struct virtio_blk_req` -/
structure Op where
  type : ℕ
  sector : ℕ

structure Chain where
  i0 : ℕ
  i1 : ℕ
  i2 : ℕ

def Chain.toList (c : Chain) : List ℕ := [c.i0, c.i1, c.i2]

structure Req (B : Type) where
  buf : B
  blockno : ℕ
  write : Bool
  ticket : ℕ

/-- An entry of a ring; the ticket is history. -/
structure Entry where
  id : ℕ
  ticket : ℕ
  deriving DecidableEq

inductive Stage
  | user
  /-- Without the lock, before `alloc3_desc`. -/
  | enter
  | alloc
  | format
  | ring
  | notify
  | test
  /-- Without the lock, in the wait for `b->disk`. -/
  | wait
  deriving DecidableEq

structure Thread (B : Type) where
  stage : Stage
  req : Req B
  chain : Chain

inductive Holder (P : Type)
  | none
  | proc (p : P)
  /-- `virtio_disk_intr` at the head of its loop. -/
  | look
  /-- `virtio_disk_intr` in its loop. -/
  | take
  deriving DecidableEq

inductive Chan (B : Type)
  | free
  | buf (b : B)
  deriving DecidableEq

inductive Panic
  | freeDesc1
  | freeDesc2
  | intrStatus
  /-- `virtio_disk_intr` follows a null pointer. -/
  | intrNull
  /-- The device finds a chain that is not a request. -/
  | device
  deriving DecidableEq

variable {P B α : Type} [DecidableEq P] [DecidableEq B]

structure Sys (P B α : Type) where
  free : ℕ → Bool
  desc : ℕ → Desc B
  ops : ℕ → Op
  /-- `disk.info[i].b` -/
  info : ℕ → Option B
  /-- `disk.info[i].status` -/
  status : ℕ → ℕ
  avail : ℕ → Entry
  availIdx : BitVec 16
  used : ℕ → Entry
  /-- `disk.used->idx` -/
  usedIdx : BitVec 16
  /-- `disk.used_idx` -/
  seenIdx : BitVec 16
  /-- `b->disk` -/
  busy : B → Bool
  data : B → α
  lock : Holder P
  thr : P → Thread B
  chan : P → Option (Chan B)
  panic : Option Panic
  /-- How far the device is in the avail ring, and the heads it has taken and served. -/
  devIdx : BitVec 16
  fetched : List Entry
  served : List Entry
  media : ℕ → α
  /-- The buffer is locked by a caller. -/
  held : B → Bool
  next : ℕ
  done : ℕ → Bool

namespace Sys

variable (s : Sys P B α) (p : P)

def wakeup (c : Chan B) : Sys P B α :=
  { s with chan := fun q => if s.chan q = some c then none else s.chan q }

def goto (stage : Stage) : Sys P B α :=
  { s with thr := update s.thr p { s.thr p with stage := stage } }

def sleep (c : Chan B) (stage : Stage) : Sys P B α :=
  { s.goto p stage with lock := .none, chan := update s.chan p (some c) }

def acquire (stage : Stage) : Option (Sys P B α) :=
  if s.lock = .none ∧ s.chan p = none then some { s.goto p stage with lock := .proc p } else none

def allocDesc : Option (Sys P B α × ℕ) :=
  ((List.range num).find? s.free).map fun i =>
    ({ s with free := update s.free i false }, i)

def freeDesc (i : ℕ) : Except Panic (Sys P B α) :=
  if num ≤ i then .error .freeDesc1
  else if s.free i then .error .freeDesc2
  else
    .ok (wakeup { s with
      desc := update s.desc i ⟨.null, 0, 0, 0⟩
      free := update s.free i true } .free)

/-- At most `num` descriptors can be freed before `free_desc` panics, so `free_chain` does not go on
for longer. -/
def freeChain : ℕ → Sys P B α → ℕ → Except Panic (Sys P B α)
  | 0, _, _ => .error .freeDesc2
  | rounds + 1, s, i =>
    match s.freeDesc i with
    | .error e => .error e
    | .ok t => if (s.desc i).flags &&& fNext ≠ 0 then freeChain rounds t (s.desc i).next else .ok t

def alloc3Desc : Except Panic (Sys P B α × Option Chain) :=
  match s.allocDesc with
  | none => .ok (s, none)
  | some (s, i0) =>
    match s.allocDesc with
    | none =>
      match s.freeDesc i0 with
      | .error e => .error e
      | .ok s => .ok (s, none)
    | some (s, i1) =>
      match s.allocDesc with
      | none =>
        match s.freeDesc i0 with
        | .error e => .error e
        | .ok s =>
          match s.freeDesc i1 with
          | .error e => .error e
          | .ok s => .ok (s, none)
      | some (s, i2) => .ok (s, some ⟨i0, i1, i2⟩)

def formatChain (r : Req B) (c : Chain) : Sys P B α :=
  { s with
    ops := update s.ops c.i0 ⟨if r.write then blkOut else blkIn, r.blockno * 2 % 2 ^ 32⟩
    desc := update (update (update s.desc c.i0 ⟨.op c.i0, 16, fNext, c.i1⟩)
      c.i1 ⟨.data r.buf, 1024, (if r.write then 0 else fWrite) ||| fNext, c.i2⟩)
      c.i2 ⟨.status c.i0, 1, fWrite, 0⟩
    status := update s.status c.i0 0xff
    busy := update s.busy r.buf true
    info := update s.info c.i0 (some r.buf) }

def go : Option (Sys P B α) :=
  let r := (s.thr p).req
  let c := (s.thr p).chain
  match (s.thr p).stage with
  | .user => none
  | .enter => s.acquire p .alloc
  | .alloc =>
    match s.alloc3Desc with
    | .error e => some { s with panic := some e }
    | .ok (t, none) => some (t.sleep p .free .enter)
    | .ok (t, some c) => some { t with thr := update t.thr p ⟨.format, r, c⟩ }
  | .format => some ((s.formatChain r c).goto p .ring)
  | .ring =>
    some (goto { s with avail := update s.avail (s.availIdx.toNat % num) ⟨c.i0, r.ticket⟩ }
      p .notify)
  | .notify => some (goto { s with availIdx := s.availIdx + 1 } p .test)
  | .test =>
    if s.busy r.buf then some (s.sleep p (.buf r.buf) .wait)
    else
      match freeChain (num + 1) { s with info := update s.info c.i0 none } c.i0 with
      | .error e => some { s with panic := some e }
      | .ok t =>
        some { t.goto p .user with lock := .none, held := update t.held r.buf false }
  | .wait => s.acquire p .test

/-- The next step of `virtio_disk_intr`, which an interrupt may start at any time. -/
def intr : Option (Sys P B α) :=
  match s.lock with
  | .none => some { s with lock := .look }
  | .proc _ => none
  | .look => some { s with lock := if s.seenIdx ≠ s.usedIdx then .take else .none }
  | .take =>
    let id := (s.used (s.seenIdx.toNat % num)).id
    if s.status id ≠ 0 then some { s with panic := some .intrStatus }
    else
      match s.info id with
      | none => some { s with panic := some .intrNull }
      | some b =>
        some (wakeup { s with
          busy := update s.busy b false
          seenIdx := s.seenIdx + 1
          lock := .look } (.buf b))

def fetch : Option (Sys P B α) :=
  if s.devIdx = s.availIdx then none
  else some { s with
    fetched := s.fetched ++ [s.avail (s.devIdx.toNat % num)]
    devIdx := s.devIdx + 1 }

def transfer (op : Op) (b : B) : Sys P B α :=
  if op.type = blkOut then { s with media := update s.media op.sector (s.data b) }
  else { s with data := update s.data b (s.media op.sector) }

def serve (e : Entry) : Option (Sys P B α) :=
  if e ∈ s.fetched then
    let d0 := s.desc e.id
    let d1 := s.desc d0.next
    let d2 := s.desc d1.next
    if d0.flags &&& fNext ≠ 0 ∧ d1.flags &&& fNext ≠ 0 ∧ d2.flags &&& fNext = 0 then
      match d0.addr, d1.addr, d2.addr with
      | .op i, .data b, .status j =>
        some { s.transfer (s.ops i) b with
          status := update s.status j 0
          fetched := s.fetched.erase e
          served := s.served ++ [e] }
      | _, _, _ => some { s with panic := some .device }
    else some { s with panic := some .device }
  else none

def post (e : Entry) : Option (Sys P B α) :=
  if e ∈ s.served then
    some { s with
      served := s.served.erase e
      used := update s.used (s.usedIdx.toNat % num) e
      usedIdx := s.usedIdx + 1
      done := update s.done e.ticket true }
  else none

end Sys

inductive Act (P B : Type)
  | rw (p : P) (b : B) (blockno : ℕ) (write : Bool)
  | go (p : P)
  | kill (p : P)
  | intr
  | fetch
  | serve (e : Entry)
  | post (e : Entry)

def step (s : Sys P B α) (a : Act P B) : Option (Sys P B α) :=
  if s.panic ≠ none then none
  else
    match a with
    | .rw p b blockno write =>
      if (s.thr p).stage = .user ∧ s.held b = false then
        some { s with
          thr := update s.thr p { s.thr p with
            stage := .enter, req := ⟨b, blockno, write, s.next⟩ }
          held := update s.held b true
          next := s.next + 1 }
      else none
    | .go p => s.go p
    | .kill p => some { s with chan := update s.chan p none }
    | .intr => s.intr
    | .fetch => s.fetch
    | .serve e => s.serve e
    | .post e => s.post e

/-- The driver after `virtio_disk_init`, with no call under way. -/
def start (thr : P → Thread B) (data : B → α) (media : ℕ → α) : Sys P B α where
  free := fun i => i < num
  desc := fun _ => ⟨.null, 0, 0, 0⟩
  ops := fun _ => ⟨0, 0⟩
  info := fun _ => none
  status := fun _ => 0
  avail := fun _ => ⟨0, 0⟩
  availIdx := 0
  used := fun _ => ⟨0, 0⟩
  usedIdx := 0
  seenIdx := 0
  busy := fun _ => false
  data := data
  lock := .none
  thr := fun p => { thr p with stage := .user }
  chan := fun _ => none
  panic := none
  devIdx := 0
  fetched := []
  served := []
  media := media
  held := fun _ => false
  next := 0
  done := fun _ => false

end Xv6.Virtio
