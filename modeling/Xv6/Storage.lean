import Xv6.Block
import Xv6.Log
import Xv6.Transition

/-!
# Buffer cache, log and disk

One machine for `kernel/bio.c` and `kernel/log.c`: processes call `bread`, modify a locked buffer in
place, call `log_write`, `brelse`, `begin_op` and `end_op`; the last `end_op` of a group goes
through `commit`; a crash keeps the disk only and is followed by `recover_from_log`. Every section
under `bcache.lock` or `log.lock`, every acquisition or release of a buffer's sleep-lock and every
disk access is a step of its own, and steps of all processes interleave freely. A `memmove` between
buffers that the process has locked is part of the `bwrite` that follows it.

`Loc` is where a process stands in `write_log`, `write_head`, `install_trans`, `read_head`, `commit`
and `recover_from_log`, with the local variables that are still used; `Call` is where it stands
inside `bread` or `brelse`. The label of a step names the buffer that `bget` recycles on a miss, so
that every order of recycling is covered.

`Ghost` is history only: no step looks at it, other than to check that a client called `log_write`
on a buffer it modified before it calls `brelse`.
-/

namespace Xv6.Storage

open Function

variable {P : Type} [DecidableEq P]

def rootDev : ℕ := 1

abbrev Disk := ℕ → Block

abbrev Slot := Fin nbuf

/-- `struct buf`; `lock` is the process that holds the sleep-lock. -/
structure Buf (P : Type) where
  valid : Bool
  dev : ℕ
  blockno : ℕ
  refcnt : ℕ
  lock : Option P
  data : Block

abbrev Bufs (P : Type) := Slot → Buf P

/-- The part of `bread` or `brelse` that is still to come. -/
inductive Call
  /-- `bget` has counted the reference and waits in `acquiresleep`. -/
  | lock (t : Slot)
  /-- `bget` has returned; the block is read unless it is valid. -/
  | fill (t : Slot)
  /-- `brelse` has released the sleep-lock and still counts the reference. -/
  | unref (t : Slot)
  deriving DecidableEq

/-- The three calls of `write_head`. -/
inductive Head
  | commit
  | erase
  | recover
  deriving DecidableEq

/-- Position in `log.c`. Each constructor is named after the function and what it does next; the
flag of `install_trans` is its argument `recovering`. -/
inductive Loc
  | client
  | wlTo (tail : ℕ)
  | wlFrom (tail : ℕ) (tbuf : Slot)
  | wlMove (tail : ℕ) (tbuf fbuf : Slot)
  | wlRelFrom (tail : ℕ) (tbuf fbuf : Slot)
  | wlRelTo (tail : ℕ) (tbuf : Slot)
  | whGet (w : Head)
  | whPut (w : Head) (buf : Slot)
  | whRel (w : Head) (buf : Slot)
  | itLog (recovering : Bool) (tail : ℕ)
  | itDst (recovering : Bool) (tail : ℕ) (lbuf : Slot)
  | itMove (recovering : Bool) (tail : ℕ) (lbuf dbuf : Slot)
  | itUnpin (tail : ℕ) (lbuf dbuf : Slot)
  | itRelLog (recovering : Bool) (tail : ℕ) (lbuf dbuf : Slot)
  | itRelDst (recovering : Bool) (tail : ℕ) (dbuf : Slot)
  | clear (recovering : Bool)
  | done
  | rhGet
  | rhRead (buf : Slot)
  | rhRel (buf : Slot)
  deriving DecidableEq

structure Thread where
  loc : Loc
  call : Option Call
  deriving DecidableEq

/-- A `log_write` of the history: the operation, the block and its contents at the call. -/
structure Write where
  op : ℕ
  block : ℕ
  data : Block

structure Ghost where
  /-- Contents of the disk at the start. -/
  base : Disk
  /-- Writes of the groups whose last `end_op` has been called, oldest first. -/
  groups : List (List Write)
  /-- Writes of the open group. -/
  cur : List Write
  /-- Number of groups whose header write has been made. -/
  ncommit : ℕ
  /-- Number of groups whose last `end_op` has returned. -/
  nreturn : ℕ
  nextOp : ℕ
  /-- The contents most recently written to each block by any process. -/
  view : Disk
  /-- Modified since the last `log_write` of it. -/
  dirty : Slot → Bool
  /-- Calls of `bpin` and of `bunpin` for each block. -/
  pins : ℕ → ℕ
  unpins : ℕ → ℕ
  /-- How many blocks of the log header `write_log` has written, `install_trans` has copied home,
  `install_trans` has unpinned. -/
  logged : ℕ
  installed : ℕ
  unpinned : ℕ

structure Sys (P : Type) where
  disk : Disk
  bufs : Bufs P
  log : Log
  thr : P → Thread
  /-- The operation that a process is in, numbered in the order of `begin_op`. -/
  op : P → Option ℕ
  /-- `recover_from_log` has completed. -/
  up : Bool
  panicked : Bool
  gh : Ghost

def replay (d : Disk) (ws : List Write) : Disk :=
  ws.foldl (fun d w => update d w.block w.data) d

def Ghost.after (g : Ghost) (k : ℕ) : Disk := replay g.base (g.groups.take k).flatten

def Ghost.latest (g : Ghost) : Disk := replay g.base (g.groups.flatten ++ g.cur)

def find (bufs : Bufs P) (dev b : ℕ) : Option Slot :=
  (List.finRange nbuf).find? fun t => (bufs t).dev = dev ∧ (bufs t).blockno = b

/-- The section of `bget` under `bcache.lock`, where `victim` is the buffer recycled on a miss. -/
def bget (bufs : Bufs P) (dev b : ℕ) (victim : Slot) : Option (Bufs P × Slot) :=
  match find bufs dev b with
  | some t => some (update bufs t { bufs t with refcnt := (bufs t).refcnt + 1 }, t)
  | none =>
    if (bufs victim).refcnt = 0 then
      some (update bufs victim { bufs victim with
        dev := dev, blockno := b, valid := false, refcnt := 1 }, victim)
    else none

namespace Sys

variable (s : Sys P) (p : P)

def setThr (th : Thread) : Sys P := { s with thr := update s.thr p th }

def setBuf (t : Slot) (b : Buf P) : Sys P := { s with bufs := update s.bufs t b }

def bread (b : ℕ) (victim : Slot) : Option (Sys P) :=
  if find s.bufs rootDev b = none ∧ ∀ t, (s.bufs t).refcnt ≠ 0 then
    some { s with panicked := true }
  else (bget s.bufs rootDev b victim).map fun r =>
    ({ s with bufs := r.1 } : Sys P).setThr p ⟨(s.thr p).loc, some (.lock r.2)⟩

def brelse (t : Slot) : Sys P :=
  (s.setBuf t { s.bufs t with lock := none }).setThr p ⟨(s.thr p).loc, some (.unref t)⟩

/-- `bwrite` of new contents of a locked buffer. -/
def bwrite (t : Slot) (data : Block) : Sys P :=
  { s.setBuf t { s.bufs t with data := data } with
    disk := update s.disk (s.bufs t).blockno data }

def afterBread (t : Slot) : Loc → Loc
  | .wlTo tail => .wlFrom tail t
  | .wlFrom tail tbuf => .wlMove tail tbuf t
  | .whGet w => .whPut w t
  | .itLog r tail => .itDst r tail t
  | .itDst r tail lbuf => .itMove r tail lbuf t
  | .rhGet => .rhRead t
  | loc => loc

def itHead (r : Bool) (tail : ℕ) : Loc :=
  if tail < s.log.lh.length then .itLog r tail else .clear r

def afterBrelse : Loc → Loc
  | .wlRelFrom tail tbuf _ => .wlRelTo tail tbuf
  | .wlRelTo tail _ => if tail + 1 < s.log.lh.length then .wlTo (tail + 1) else .whGet .commit
  | .whRel .commit _ => s.itHead false 0
  | .whRel .erase _ => .done
  | .whRel .recover _ => .client
  | .itRelLog r tail _ dbuf => .itRelDst r tail dbuf
  | .itRelDst r tail _ => s.itHead r (tail + 1)
  | .rhRel _ => s.itHead true 0
  | loc => loc

/-- Whether the `brelse` of this position is the last step of `recover_from_log`. -/
def lastOfRecovery : Loc → Bool
  | .whRel .recover _ => true
  | _ => false

def stepCall : Call → Option (Sys P)
  | .lock t =>
    if (s.bufs t).lock = none then
      some ((s.setBuf t { s.bufs t with lock := some p }).setThr p ⟨(s.thr p).loc, some (.fill t)⟩)
    else none
  | .fill t =>
    let b := s.bufs t
    let b' := if b.valid then b else { b with data := s.disk b.blockno, valid := true }
    some ((s.setBuf t b').setThr p ⟨afterBread t (s.thr p).loc, none⟩)
  | .unref t =>
    let s' := s.setBuf t { s.bufs t with refcnt := (s.bufs t).refcnt - 1 }
    some ({ s' with up := s.up || lastOfRecovery (s.thr p).loc }.setThr p
      ⟨s.afterBrelse (s.thr p).loc, none⟩)

def lhBlock (i : ℕ) : ℕ := s.log.lh.getD i 0

/-- A process in `commit` or `recover_from_log` takes its next step outside `bread` and `brelse`. -/
def stepLoc (victim : Slot) : Loc → Option (Sys P)
  | .client => none
  | .wlTo tail => s.bread p (s.log.start + tail + 1) victim
  | .wlFrom tail _ => s.bread p (s.lhBlock tail) victim
  | .wlMove tail tbuf fbuf =>
    let s' := (s.bwrite tbuf (s.bufs fbuf).data).setThr p ⟨.wlRelFrom tail tbuf fbuf, none⟩
    some { s' with gh := { s.gh with logged := s.gh.logged + 1 } }
  | .wlRelFrom _ _ fbuf => some (s.brelse p fbuf)
  | .wlRelTo _ tbuf => some (s.brelse p tbuf)
  | .whGet _ => s.bread p s.log.start victim
  | .whPut w buf =>
    let s' := (s.bwrite buf ((s.bufs buf).data.putHead s.log.lh)).setThr p ⟨.whRel w buf, none⟩
    some { s' with gh := match w with
      | .commit => { s.gh with ncommit := s.gh.ncommit + 1, logged := 0, installed := 0 }
      | _ => { s.gh with installed := 0 } }
  | .whRel _ buf => some (s.brelse p buf)
  | .itLog _ tail => s.bread p (s.log.start + tail + 1) victim
  | .itDst _ tail _ => s.bread p (s.lhBlock tail) victim
  | .itMove r tail lbuf dbuf =>
    let next : Loc := if r then .itRelLog r tail lbuf dbuf else .itUnpin tail lbuf dbuf
    let s' := (s.bwrite dbuf (s.bufs lbuf).data).setThr p ⟨next, none⟩
    some { s' with gh := { s.gh with installed := s.gh.installed + 1 } }
  | .itUnpin tail lbuf dbuf =>
    let b := s.bufs dbuf
    let s' := (s.setBuf dbuf { b with refcnt := b.refcnt - 1 }).setThr p
      ⟨.itRelLog false tail lbuf dbuf, none⟩
    some { s' with gh := { s.gh with
      unpinned := s.gh.unpinned + 1
      unpins := update s.gh.unpins b.blockno (s.gh.unpins b.blockno + 1) } }
  | .itRelLog _ _ lbuf _ => some (s.brelse p lbuf)
  | .itRelDst _ _ dbuf => some (s.brelse p dbuf)
  | .clear r =>
    some { s.setThr p ⟨.whGet (if r then .recover else .erase), none⟩ with
      log := s.log.clear
      gh := { s.gh with unpinned := 0 } }
  | .done =>
    some { s.setThr p ⟨.client, none⟩ with
      log := s.log.endCommit
      gh := { s.gh with nreturn := s.gh.groups.length } }
  | .rhGet => s.bread p s.log.start victim
  | .rhRead buf =>
    let lh := (s.bufs buf).data.getHead
    some { s.setThr p ⟨.rhRel buf, none⟩ with
      log := { s.log with lh := lh }
      gh := { s.gh with unpinned := lh.length } }
  | .rhRel buf => some (s.brelse p buf)

/-- After a crash: the disk is all that is left, and `p` runs `recover_from_log`. -/
def crash : Sys P where
  disk := s.disk
  bufs := fun _ => ⟨false, 0, 0, 0, none, fun _ => 0⟩
  log := Log.empty s.log.start s.log.size
  thr := update (fun _ => ⟨.client, none⟩) p ⟨.rhGet, none⟩
  op := fun _ => none
  up := false
  panicked := false
  gh :=
    { s.gh with
      groups := s.gh.groups.take s.gh.ncommit
      cur := []
      view := s.gh.after s.gh.ncommit
      dirty := fun _ => false
      pins := fun _ => 0
      unpins := fun _ => 0
      logged := 0
      installed := 0
      unpinned := 0 }

def ready : Prop := s.up ∧ s.thr p = ⟨.client, none⟩

instance : Decidable (s.ready p) := inferInstanceAs (Decidable (_ ∧ _))

/-- `log_write` of a buffer that the process has locked, in operation `o`. -/
def logWrite (t : Slot) (o : ℕ) : Sys P :=
  let b := s.bufs t
  match s.log.logWrite b.blockno with
  | .error _ => { s with panicked := true }
  | .ok (l, new) =>
    { s.setBuf t { b with refcnt := if new then b.refcnt + 1 else b.refcnt } with
      log := l
      gh := { s.gh with
        cur := s.gh.cur ++ [⟨o, b.blockno, b.data⟩]
        dirty := update s.gh.dirty t false
        pins := if new then update s.gh.pins b.blockno (s.gh.pins b.blockno + 1)
          else s.gh.pins } }

/-- `end_op` up to the call of `commit`, whose loops are entered only if something was logged. -/
def endOp : Sys P :=
  match s.log.endOp with
  | .error _ => { s with panicked := true }
  | .ok (l, false) => { s with log := l, op := update s.op p none }
  | .ok (l, true) =>
    let gh := { s.gh with groups := s.gh.groups ++ [s.gh.cur], cur := [] }
    if 0 < l.lh.length then
      { s.setThr p ⟨.wlTo 0, none⟩ with
        log := l, op := update s.op p none, gh := gh }
    else
      { s.setThr p ⟨.done, none⟩ with
        log := l, op := update s.op p none, gh := { gh with ncommit := gh.ncommit + 1 } }

end Sys

inductive Act (P : Type)
  | bread (p : P) (b : ℕ) (victim : Slot)
  | modify (p : P) (t : Slot) (data : Block)
  | logWrite (p : P) (t : Slot)
  | brelse (p : P) (t : Slot)
  | beginOp (p : P)
  | endOp (p : P)
  | tick (p : P) (victim : Slot)
  | crash (p : P)

open Sys in
def step (s : Sys P) : Act P → Option (Sys P)
  | .crash p => some (s.crash p)
  | .tick p victim =>
    if s.panicked then none else
    match (s.thr p).call with
    | some c => s.stepCall p c
    | none => s.stepLoc p victim (s.thr p).loc
  | .bread p b victim =>
    if ¬ s.panicked ∧ s.ready p ∧ b < 2 ^ 32 then s.bread p b victim else none
  | .modify p t data =>
    if ¬ s.panicked ∧ s.ready p ∧ (s.bufs t).lock = some p ∧ ¬ s.log.Area (s.bufs t).blockno then
      some { s.setBuf t { s.bufs t with data := data } with
        gh := { s.gh with
          view := update s.gh.view (s.bufs t).blockno data
          dirty := update s.gh.dirty t true } }
    else none
  | .logWrite p t =>
    match s.op p with
    | none => none
    | some o =>
      if ¬ s.panicked ∧ s.ready p ∧ (s.bufs t).lock = some p ∧ ¬ s.log.Area (s.bufs t).blockno then
        some (s.logWrite t o)
      else none
  | .brelse p t =>
    if ¬ s.panicked ∧ s.ready p ∧ (s.bufs t).lock = some p ∧ ¬ s.gh.dirty t then
      some (s.brelse p t)
    else none
  | .beginOp p =>
    if ¬ s.panicked ∧ s.ready p ∧ s.op p = none then
      s.log.beginOp.map fun l =>
        { s with
          log := l
          op := update s.op p (some s.gh.nextOp)
          gh := { s.gh with nextOp := s.gh.nextOp + 1 } }
    else none
  | .endOp p => if ¬ s.panicked ∧ s.ready p ∧ s.op p ≠ none then some (s.endOp p) else none

/-- A disk with an empty log, before the machine starts. -/
def powerOn (start size : ℕ) (d : Disk) (p : P) : Sys P where
  disk := d
  bufs := fun _ => ⟨false, 0, 0, 0, none, fun _ => 0⟩
  log := Log.empty start size
  thr := update (fun _ => ⟨.client, none⟩) p ⟨.rhGet, none⟩
  op := fun _ => none
  up := false
  panicked := false
  gh := ⟨d, [], [], 0, 0, 0, d, fun _ => false, fun _ => 0, fun _ => 0, 0, 0, 0⟩

end Xv6.Storage
