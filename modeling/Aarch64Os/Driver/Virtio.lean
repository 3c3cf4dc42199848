import Mathlib

/-!
# The virtio block queue (`kernel/driver/virtio.c`)

The split virtqueue of `struct virtq`: a table of `NQUEUE` descriptors whose
unused entries are threaded through `next` from `freeHead`, the `avail` and `used`
rings with their free-running 16-bit indices, and one `info` record for every
descriptor that can head a chain. A descriptor's index has type `Fin NQUEUE`; the
16-bit `flags` are kept as the bits the device reads.
-/

namespace Aarch64Os.Driver
set_option autoImplicit false

/-- `NQUEUE`: the number of descriptors. -/
abbrev NQUEUE : Nat := 8

/-- A `char *` data buffer, by its address. -/
abbrev BufPtr := Nat

def VIRTQ_DESC_F_NEXT : BitVec 16 := 1
def VIRTQ_DESC_F_WRITE : BitVec 16 := 2

def VIRTIO_BLK_T_IN : Nat := 0
def VIRTIO_BLK_T_OUT : Nat := 1

/-- `enum diskop`. -/
inductive DiskOp
  | DREAD
  | DWRITE
  deriving DecidableEq

/-- `struct virtio_blk_req_hdr`. -/
structure ReqHdr where
  type : Nat
  reserved : Nat
  sector : Nat
  deriving DecidableEq

/-- What a descriptor's `addr` refers to: the header on the submitter's stack, a data
buffer, or the status byte of the chain headed by `i`. -/
inductive DescAddr
  | null
  | hdr (h : ReqHdr)
  | buf (b : BufPtr)
  | status (i : Fin NQUEUE)
  deriving DecidableEq

/-- `struct virtq_desc`. -/
structure Desc where
  addr : DescAddr
  len : Nat
  flags : BitVec 16
  next : Fin NQUEUE
  deriving DecidableEq

/-- `desc.flags & VIRTQ_DESC_F_NEXT`. -/
def Desc.hasNext (d : Desc) : Bool := d.flags &&& VIRTQ_DESC_F_NEXT != 0

/-- `info[i]`: the status byte the device writes, `done`, and the channel to wake. -/
structure Info where
  status : BitVec 8
  done : Bool
  buf : Option BufPtr
  deriving DecidableEq

/-- `struct virtq_avail` and `struct virtq_used`: a ring of chain heads with its index. -/
structure Ring where
  idx : BitVec 16
  ring : Fin NQUEUE → Fin NQUEUE

/-- `idx % NQUEUE`. -/
def slot (idx : BitVec 16) : Fin NQUEUE := Fin.ofNat NQUEUE idx.toNat

/-- `ring[idx % NQUEUE] = d; idx++`. -/
def Ring.push (r : Ring) (d : Fin NQUEUE) : Ring :=
  { idx := r.idx + 1, ring := Function.update r.ring (slot r.idx) d }

/-- `struct virtq`. -/
structure Virtq where
  desc : Fin NQUEUE → Desc
  avail : Ring
  used : Ring
  freeHead : Fin NQUEUE
  nfree : Nat
  lastUsedIdx : BitVec 16
  info : Fin NQUEUE → Info

/-- Change one descriptor. -/
def Virtq.setDesc (vq : Virtq) (d : Fin NQUEUE) (f : Desc → Desc) : Virtq :=
  { vq with desc := Function.update vq.desc d (f (vq.desc d)) }

/-- Change one `info` record. -/
def Virtq.setInfo (vq : Virtq) (d : Fin NQUEUE) (f : Info → Info) : Virtq :=
  { vq with info := Function.update vq.info d (f (vq.info d)) }

/-- `desc_init`: link every descriptor but the last to its successor. -/
def descInit (vq : Virtq) : Virtq :=
  { vq with desc := fun i =>
      if i.val ≠ NQUEUE - 1 then { vq.desc i with flags := VIRTQ_DESC_F_NEXT, next := i + 1 } else vq.desc i }

/-- A zeroed page read as a ring. -/
def Ring.zero : Ring := { idx := 0, ring := fun _ => 0 }

/-- `virtq_init`: the zeroed queue with every descriptor free. -/
def virtqInit : Virtq :=
  descInit
    { desc := fun _ => { addr := .null, len := 0, flags := 0, next := 0 }
      avail := .zero
      used := .zero
      freeHead := 0
      nfree := NQUEUE
      lastUsedIdx := 0
      info := fun _ => { status := 0, done := false, buf := none } }

/-- `alloc_desc`: take the descriptor at the head of the free list, or panic. -/
def allocDesc (vq : Virtq) : Except String (Fin NQUEUE × Virtq) :=
  if vq.nfree = 0 then .error "virtq kokatu"
  else
    let d := vq.freeHead
    let head := if (vq.desc d).hasNext then (vq.desc d).next else vq.freeHead
    .ok (d, { vq with freeHead := head, nfree := vq.nfree - 1 })

/-- The loop of `free_desc` from `n`: the last descriptor of the chain and how many it
counted. A chain that has not ended after `NQUEUE` descriptors is a cycle, on which
the loop never ends (`none`). -/
def walk (desc : Fin NQUEUE → Desc) : Nat → Fin NQUEUE → Option (Fin NQUEUE × Nat)
  | 0, _ => none
  | fuel + 1, n =>
    if (desc n).hasNext then (walk desc fuel (desc n).next).map fun r => (r.1, r.2 + 1)
    else some (n, 1)

/-- `free_desc`: put the chain headed by `n` in front of the free list. Under an empty
list the last descriptor keeps its old link. -/
def freeDesc (vq : Virtq) (n : Fin NQUEUE) : Option Virtq :=
  (walk vq.desc NQUEUE n).map fun r =>
    let link := fun d : Desc =>
      { d with flags := VIRTQ_DESC_F_NEXT, next := if vq.nfree = 0 then d.next else vq.freeHead }
    { vq.setDesc r.1 link with nfree := vq.nfree + r.2, freeHead := n }

/-- The arguments of one `virtio_blk_op` call. -/
structure Req where
  bno : Nat
  buf : BufPtr
  op : DiskOp
  deriving DecidableEq

/-- The request header of a call; the sector is a 64-bit product. -/
def Req.hdr (r : Req) : ReqHdr where
  type := match r.op with
    | .DREAD => VIRTIO_BLK_T_IN
    | .DWRITE => VIRTIO_BLK_T_OUT
  reserved := 0
  sector := r.bno * 2 % 2 ^ 64

/-- The flags of the data descriptor: the device writes it on a read. -/
def Req.dataFlags (r : Req) : BitVec 16 :=
  match r.op with
  | .DREAD => VIRTQ_DESC_F_NEXT ||| VIRTQ_DESC_F_WRITE
  | .DWRITE => VIRTQ_DESC_F_NEXT

/-- `virtio_blk_op`, first descriptor: the request header. -/
def fillHdr (vq : Virtq) (r : Req) (d0 : Fin NQUEUE) : Virtq :=
  vq.setDesc d0 fun d => { d with addr := .hdr r.hdr, len := 16, flags := VIRTQ_DESC_F_NEXT }

/-- `virtio_blk_op`, second descriptor: the data buffer. -/
def fillData (vq : Virtq) (r : Req) (d0 d1 : Fin NQUEUE) : Virtq :=
  (vq.setDesc d0 fun d => { d with next := d1 }).setDesc d1 fun d =>
    { d with addr := .buf r.buf, len := 1024, flags := r.dataFlags }

/-- `virtio_blk_op`, third descriptor: the status byte. -/
def fillStatus (vq : Virtq) (d0 d1 d2 : Fin NQUEUE) : Virtq :=
  (vq.setDesc d1 fun d => { d with next := d2 }).setDesc d2 fun _ =>
    { addr := .status d0, len := 1, flags := VIRTQ_DESC_F_WRITE, next := 0 }

/-- `virtio_blk_op`: publish the chain headed by `d0` in the avail ring. -/
def publish (vq : Virtq) (r : Req) (d0 : Fin NQUEUE) : Virtq :=
  { vq.setInfo d0 fun i => { i with buf := some r.buf } with avail := vq.avail.push d0 }

/-- One iteration of `virtio_blk_intr`: mark the next completed chain, and give the
channel to wake. A status other than 0 is a panic. -/
def intrEntry (vq : Virtq) : Except String (Option BufPtr × Virtq) :=
  let d0 := vq.used.ring (slot vq.lastUsedIdx)
  if (vq.info d0).status ≠ 0 then .error "disk op error"
  else
    .ok ((vq.info d0).buf,
      { vq.setInfo d0 fun i => { i with done := true, buf := none } with lastUsedIdx := vq.lastUsedIdx + 1 })

@[simp] theorem hasNext_next (a : DescAddr) (n : Nat) (i : Fin NQUEUE) :
    Desc.hasNext { addr := a, len := n, flags := VIRTQ_DESC_F_NEXT, next := i } = true := by
  simp [Desc.hasNext, VIRTQ_DESC_F_NEXT]

@[simp] theorem hasNext_write (a : DescAddr) (n : Nat) (i : Fin NQUEUE) :
    Desc.hasNext { addr := a, len := n, flags := VIRTQ_DESC_F_WRITE, next := i } = false := by
  simp [Desc.hasNext, VIRTQ_DESC_F_NEXT, VIRTQ_DESC_F_WRITE]

@[simp] theorem hasNext_data (a : DescAddr) (n : Nat) (r : Req) (i : Fin NQUEUE) :
    Desc.hasNext { addr := a, len := n, flags := r.dataFlags, next := i } = true := by
  cases h : r.op <;> simp [Desc.hasNext, Req.dataFlags, h, VIRTQ_DESC_F_NEXT, VIRTQ_DESC_F_WRITE]

/-- The free list without its first descriptor. -/
def Virtq.pop (vq : Virtq) : Virtq :=
  { vq with
    freeHead := if (vq.desc vq.freeHead).hasNext then (vq.desc vq.freeHead).next else vq.freeHead
    nfree := vq.nfree - 1 }

/-- A nonempty free list gives its head. -/
theorem allocDesc_pos {vq : Virtq} (h : 0 < vq.nfree) : allocDesc vq = .ok (vq.freeHead, vq.pop) := by
  unfold allocDesc
  rw [if_neg (by omega)]
  rfl

/-- `alloc_desc` panics on an empty free list. -/
theorem allocDesc_zero {vq : Virtq} (h : vq.nfree = 0) : allocDesc vq = .error "virtq kokatu" := by
  unfold allocDesc
  rw [if_pos h]

/-- A chain of three descriptors is walked in three steps. -/
theorem walk_three {desc : Fin NQUEUE → Desc} {d0 d1 d2 : Fin NQUEUE} (h0 : (desc d0).hasNext = true)
    (n0 : (desc d0).next = d1) (h1 : (desc d1).hasNext = true) (n1 : (desc d1).next = d2)
    (h2 : (desc d2).hasNext = false) : walk desc NQUEUE d0 = some (d2, 3) := by
  simp [NQUEUE, walk, h0, n0, h1, n1, h2]

end Aarch64Os.Driver
