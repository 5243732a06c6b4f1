import Cs111Labs.Osprd.Device

/-!
# Reading and writing sectors

`osprd_process_request` with its 32-bit arithmetic, over the memory of the kernel.
An `int` or a `size_t` is a `Word` like an address.
`osp_spin_lock` keeps other calls out and is not part of the state.
-/

namespace Cs111Labs.Osprd

open Foundation

abbrev Ram := Word → UInt8

def memcpy (m : Ram) (dst src n : Word) : Ram := fun a =>
  if a - dst < n then m (src + (a - dst)) else m a

/-- The part of `osprd_info_t` that requests use, and the module parameter. -/
structure Ramdisk where
  data : Word
  nsectors : Word := 32

structure Request where
  /-- `blk_fs_request` -/
  fs : Bool
  sector : BitVec 64
  currentNrSectors : Word
  /-- `rq_data_dir(req) == WRITE` -/
  write : Bool
  buffer : Word

/-- The arguments of the calls of `end_request` are returned as well. -/
def osprdProcessRequest (d : Ramdisk) (req : Request) (m : Ram) : Ram × List Bool :=
  let offset : Word := (req.sector * 512).setWidth 32
  let numBytes : Word := req.currentNrSectors * 512
  if req.fs = false then (m, [false])
  else
    -- the function goes on after the failed test
    let ends := if (d.nsectors * 512).slt (offset + numBytes) then [false] else []
    let m :=
      if req.write then memcpy m (d.data + offset) req.buffer numBytes
      else memcpy m req.buffer (d.data + offset) numBytes
    (m, ends ++ [true])

def osprdProcessRequestQueue (d : Ramdisk) : List Request → Ram → Ram × List (List Bool)
  | [], m => (m, [])
  | req :: queue, m =>
      let (m, ends) := osprdProcessRequest d req m
      let (m, rest) := osprdProcessRequestQueue d queue m
      (m, ends :: rest)

/-! ## The array of sectors -/

namespace Ramdisk

variable (d : Ramdisk)

/-- The length of the data array in bytes. -/
def size : Nat := 512 * d.nsectors.toNat

/-- `d->data[k]` -/
def byte (m : Ram) (k : Nat) : UInt8 := m (d.data + BitVec.ofNat 32 k)

/-- The request lies within `nsectors`. -/
def Within (req : Request) : Prop :=
  req.sector.toNat + req.currentNrSectors.toNat ≤ d.nsectors.toNat

instance (req : Request) : Decidable (d.Within req) := Nat.decLe _ _

end Ramdisk

namespace Request

def start (req : Request) : Nat := 512 * req.sector.toNat

def length (req : Request) : Nat := 512 * req.currentNrSectors.toNat

/-- The contents of the buffer. -/
def bytes (req : Request) (m : Ram) : List UInt8 :=
  (List.range req.length).map fun j => m (req.buffer + BitVec.ofNat 32 j)

end Request

/-- The byte last written at an offset, 0 if there is none; the newest write is the first. -/
def lastWritten : List (Nat × List UInt8) → Nat → UInt8
  | [], _ => 0
  | (start, bytes) :: older, k =>
      if start ≤ k ∧ k < start + bytes.length then bytes.getD (k - start) 0
      else lastWritten older k

/-- Kernel memory and the writes within `nsectors` so far. -/
structure Store where
  ram : Ram
  writes : List (Nat × List UInt8) := []

inductive Event where
  /-- The rest of the kernel fills buffers. -/
  | elsewhere (ram : Ram)
  | request (req : Request)

namespace Ramdisk

variable (d : Ramdisk)

def step : Event → Store → Option Store
  | .elsewhere ram, s => some { s with ram := ram }
  | .request req, s => some
      { ram := (osprdProcessRequest d req s.ram).1
        writes := if req.write = true ∧ d.Within req then
          (req.start, req.bytes s.ram) :: s.writes else s.writes }

/-- The array belongs to the module, and a request of a file system has a buffer
of its own. -/
def Promised : Event → Store → Prop
  | .elsewhere ram, s => ∀ k < d.size, d.byte ram k = d.byte s.ram k
  | .request req, _ => req.fs = true ∧ ∀ k < d.size, ∀ j < req.length,
      d.data + BitVec.ofNat 32 k ≠ req.buffer + BitVec.ofNat 32 j

/-- The request has the effect that it has on an array of sectors. -/
structure Serves (s : Store) (req : Request) : Prop where
  reads : d.Within req → req.write = false →
    (∀ j < req.length, (osprdProcessRequest d req s.ram).1 (req.buffer + BitVec.ofNat 32 j) =
        lastWritten s.writes (req.start + j)) ∧
      ∀ k < d.size, d.byte (osprdProcessRequest d req s.ram).1 k = d.byte s.ram k
  writes : d.Within req → req.write = true →
    (∀ k < d.size, d.byte (osprdProcessRequest d req s.ram).1 k =
        if req.start ≤ k ∧ k < req.start + req.length then
          s.ram (req.buffer + BitVec.ofNat 32 (k - req.start))
        else d.byte s.ram k) ∧
      ∀ j < req.length, (osprdProcessRequest d req s.ram).1 (req.buffer + BitVec.ofNat 32 j) =
        s.ram (req.buffer + BitVec.ofNat 32 j)
  refuses : ¬ d.Within req →
    (∀ k < d.size, d.byte (osprdProcessRequest d req s.ram).1 k = d.byte s.ram k) ∧
      ∀ j < req.length, (osprdProcessRequest d req s.ram).1 (req.buffer + BitVec.ofNat 32 j) =
        s.ram (req.buffer + BitVec.ofNat 32 j)
  once : (osprdProcessRequest d req s.ram).2.length = 1

end Ramdisk

variable {d : Ramdisk} {s : Store} {req : Request} {m : Ram}

/-! ## Copying -/

theorem memcpy_inside {dst src n : Word} {j : Nat} (hj : j < n.toNat) :
    memcpy m dst src n (dst + BitVec.ofNat 32 j) = m (src + BitVec.ofNat 32 j) := by
  have hsub : dst + BitVec.ofNat 32 j - dst = BitVec.ofNat 32 j := by bv_omega
  have hlt : BitVec.ofNat 32 j < n := by bv_omega
  rw [memcpy, hsub, if_pos hlt]

theorem memcpy_outside {dst src n a : Word}
    (hout : ∀ j < n.toNat, a ≠ dst + BitVec.ofNat 32 j) : memcpy m dst src n a = m a := by
  refine if_neg fun hlt => hout (a - dst).toNat (by bv_omega) ?_
  rw [BitVec.ofNat_toNat, BitVec.setWidth_eq]
  bv_omega

/-! ## One request -/

theorem refused_twice (hfs : req.fs = true)
    (hpast : (d.nsectors * 512).slt ((req.sector * 512).setWidth 32 +
      req.currentNrSectors * 512) = true) (m : Ram) :
    (osprdProcessRequest d req m).2 = [false, true] := by
  unfold osprdProcessRequest
  dsimp only
  rw [hfs, if_neg (by decide), if_pos hpast]
  rfl

theorem toNat_512 : (512 : Word).toNat = 512 := rfl

/-- Nothing wraps for a request within `nsectors`. -/
structure InRange (d : Ramdisk) (req : Request) : Prop where
  offset : ((req.sector * 512).setWidth 32 : Word).toNat = req.start
  numBytes : (req.currentNrSectors * 512).toNat = req.length
  fits : req.start + req.length ≤ d.size
  passes : (d.nsectors * 512).slt
    ((req.sector * 512).setWidth 32 + req.currentNrSectors * 512) = false

theorem inRange_of_within (hsize : d.size < 2 ^ 31) (hw : d.Within req) : InRange d req := by
  unfold Ramdisk.Within at hw
  unfold Ramdisk.size at hsize
  have hoffset : ((req.sector * 512).setWidth 32 : Word).toNat = req.start := by
    rw [BitVec.toNat_setWidth, BitVec.toNat_mul, show (512 : BitVec 64).toNat = 512 from rfl,
      Request.start]
    omega
  have hnum : (req.currentNrSectors * 512).toNat = req.length := by
    rw [BitVec.toNat_mul, toNat_512, Request.length]
    omega
  have hfits : req.start + req.length ≤ d.size := by
    unfold Request.start Request.length Ramdisk.size
    omega
  refine ⟨hoffset, hnum, hfits, ?_⟩
  have hlimit : (d.nsectors * 512).toNat = d.size := by
    rw [BitVec.toNat_mul, toNat_512, Ramdisk.size]
    omega
  have hsum : ((req.sector * 512).setWidth 32 + req.currentNrSectors * 512 : Word).toNat =
      req.start + req.length := by
    rw [BitVec.toNat_add, hoffset, hnum]
    unfold Ramdisk.size at hfits
    omega
  rw [BitVec.slt, decide_eq_false_iff_not, not_lt, BitVec.toInt_eq_toNat_cond,
    BitVec.toInt_eq_toNat_cond, hlimit, hsum]
  unfold Ramdisk.size at *
  split_ifs <;> omega

theorem InRange.process (h : InRange d req) (hfs : req.fs = true) (m : Ram) :
    osprdProcessRequest d req m =
      (if req.write then
          memcpy m (d.data + (req.sector * 512).setWidth 32) req.buffer
            (req.currentNrSectors * 512)
        else
          memcpy m req.buffer (d.data + (req.sector * 512).setWidth 32)
            (req.currentNrSectors * 512), [true]) := by
  unfold osprdProcessRequest
  dsimp only
  rw [hfs, if_neg (by decide), h.passes, if_neg Bool.false_ne_true]
  rfl

/-- Where the bytes of the request are in the array. -/
theorem InRange.place (h : InRange d req) (j : Nat) :
    d.data + (req.sector * 512).setWidth 32 + BitVec.ofNat 32 j =
      d.data + BitVec.ofNat 32 (req.start + j) := by
  have hoffset := h.offset
  bv_omega

theorem InRange.read (h : InRange d req) (hp : d.Promised (.request req) s)
    (hread : req.write = false) :
    (∀ j < req.length, (osprdProcessRequest d req s.ram).1 (req.buffer + BitVec.ofNat 32 j) =
        d.byte s.ram (req.start + j)) ∧
      ∀ k < d.size, d.byte (osprdProcessRequest d req s.ram).1 k = d.byte s.ram k := by
  obtain ⟨hfs, hapart⟩ := hp
  rw [h.process hfs, hread, if_neg Bool.false_ne_true]
  constructor
  · intro j hj
    rw [Ramdisk.byte, ← h.place]
    exact memcpy_inside (by rwa [h.numBytes])
  · intro k hk
    exact memcpy_outside fun j hj => hapart k hk j (by rwa [h.numBytes] at hj)

theorem InRange.write (h : InRange d req) (hsize : d.size < 2 ^ 31)
    (hp : d.Promised (.request req) s) (hwrite : req.write = true) :
    (∀ k < d.size, d.byte (osprdProcessRequest d req s.ram).1 k =
        if req.start ≤ k ∧ k < req.start + req.length then
          s.ram (req.buffer + BitVec.ofNat 32 (k - req.start))
        else d.byte s.ram k) ∧
      ∀ j < req.length, (osprdProcessRequest d req s.ram).1 (req.buffer + BitVec.ofNat 32 j) =
        s.ram (req.buffer + BitVec.ofNat 32 j) := by
  obtain ⟨hfs, hapart⟩ := hp
  have hfits := h.fits
  rw [h.process hfs, hwrite, if_pos rfl]
  constructor
  · intro k hk
    split_ifs with hmem
    · have hplace := h.place (k - req.start)
      rw [Nat.add_sub_cancel' hmem.1] at hplace
      rw [Ramdisk.byte, ← hplace]
      exact memcpy_inside (by rw [h.numBytes]; omega)
    · refine memcpy_outside fun j hj heq => hmem ?_
      rw [h.numBytes] at hj
      rw [h.place] at heq
      bv_omega
  · intro j hj
    refine memcpy_outside fun i hi heq => ?_
    rw [h.numBytes] at hi
    rw [h.place] at heq
    exact hapart (req.start + i) (by omega) j hj heq.symm

/-! ## Runs -/

/-- The array has what was last written. -/
def Faithful (d : Ramdisk) (s : Store) : Prop :=
  ∀ k < d.size, d.byte s.ram k = lastWritten s.writes k

theorem Faithful.serves (h : Faithful d s) (hsize : d.size < 2 ^ 31)
    (hp : d.Promised (.request req) s) (hw : d.Within req) : d.Serves s req := by
  have hr := inRange_of_within hsize hw
  refine ⟨fun _ hread => ?_, fun _ hwrite => hr.write hsize hp hwrite,
    fun hnot => absurd hw hnot, ?_⟩
  · obtain ⟨hbytes, hsame⟩ := hr.read hp hread
    refine ⟨fun j hj => (hbytes j hj).trans (h _ ?_), hsame⟩
    have hfits := hr.fits
    omega
  · rw [hr.process hp.1]
    rfl

/-- The requests of the run lie within `nsectors`. -/
def Ramdisk.Accepts (d : Ramdisk) (event : Event) (s : Store) : Prop :=
  d.Promised event s ∧ ∀ req, event = .request req → d.Within req

theorem Faithful.step {event : Event} {s' : Store} (h : Faithful d s)
    (hsize : d.size < 2 ^ 31) (haccepts : d.Accepts event s)
    (hstep : d.step event s = some s') : Faithful d s' := by
  obtain ⟨hp, hw⟩ := haccepts
  intro k hk
  cases event with
  | elsewhere ram =>
      obtain rfl := Option.some.inj hstep
      exact (hp k hk).trans (h k hk)
  | request req =>
      obtain rfl := Option.some.inj hstep
      have hw := hw req rfl
      have hr := inRange_of_within hsize hw
      cases hwrite : req.write with
      | false =>
          rw [if_neg fun hboth => Bool.false_ne_true hboth.1]
          exact ((hr.read hp hwrite).2 k hk).trans (h k hk)
      | true =>
          rw [if_pos ⟨rfl, hw⟩, (hr.write hsize hp hwrite).1 k hk, lastWritten]
          simp only [Request.bytes, List.length_map, List.length_range]
          split_ifs with hmem
          · have hlt : k - req.start < req.length := by omega
            simp [hlt]
          · exact h k hk

theorem serves_of_reaches {first : Ram} (hsize : d.size < 2 ^ 31)
    (hzero : ∀ k < d.size, d.byte first k = 0)
    (hrun : Reaches d.step d.Accepts ⟨first, []⟩ s)
    (haccepts : d.Accepts (.request req) s) : d.Serves s req := by
  have hfaithful : Faithful d s :=
    hrun.invariant hzero fun event s s' h hallowed hstep => h.step hsize hallowed hstep
  exact hfaithful.serves hsize haccepts.1 (haccepts.2 req rfl)

/-- A queue is a part of a run, and each of its requests is completed once. -/
theorem queue_of_reaches {first : Ram} (hsize : d.size < 2 ^ 31) (queue : List Request)
    (hqueue : ∀ req ∈ queue, ∀ s, d.Accepts (.request req) s)
    (hrun : Reaches d.step d.Accepts ⟨first, []⟩ s) :
    (∃ writes, Reaches d.step d.Accepts ⟨first, []⟩
        ⟨(osprdProcessRequestQueue d queue s.ram).1, writes⟩) ∧
      (osprdProcessRequestQueue d queue s.ram).2 = queue.map fun _ => [true] := by
  induction queue generalizing s with
  | nil => exact ⟨⟨s.writes, hrun⟩, rfl⟩
  | cons req queue ih =>
      have haccepts := hqueue req (.head _) s
      obtain ⟨hrest, hends⟩ := ih (fun next hmem => hqueue next (.tail _ hmem))
        (hrun.next (.request req) haccepts rfl)
      refine ⟨hrest, ?_⟩
      have hr := inRange_of_within hsize (haccepts.2 req rfl)
      rw [osprdProcessRequestQueue, List.map_cons, ← hends]
      dsimp only
      rw [hr.process haccepts.1.1]

/-- Reading back a sector that was written, from a buffer behind the array. -/
def secondSector (write : Bool) : Request where
  fs := true
  sector := 1
  currentNrSectors := 1
  write := write
  buffer := 65536

theorem secondSector_accepts (write : Bool) (s : Store) :
    (⟨0, 32⟩ : Ramdisk).Accepts (.request (secondSector write)) s := by
  refine ⟨⟨rfl, fun k hk j hj => ?_⟩, fun req heq => ?_⟩
  · change k < 512 * 32 at hk
    change j < 512 * 1 at hj
    simp only [secondSector]
    bv_omega
  · injection heq with heq
    subst heq
    change 1 + 1 ≤ 32
    decide

theorem serves_of_reaches_secondSector :
    ∃ s, (⟨0, 32⟩ : Ramdisk).step (.request (secondSector true)) ⟨fun _ => 0, []⟩ = some s ∧
      (⟨0, 32⟩ : Ramdisk).Serves s (secondSector false) :=
  ⟨_, rfl, serves_of_reaches (by decide) (fun _ _ => rfl)
    (.next .start (.request (secondSector true)) (secondSector_accepts true _) rfl)
    (secondSector_accepts false _)⟩

/-- A request for the first sector that is not there is completed twice. -/
theorem pastEnd_not_serves :
    ¬ ∀ (d : Ramdisk) (first : Ram), d.size < 2 ^ 31 → (∀ k < d.size, d.byte first k = 0) →
      ∀ s, Reaches d.step d.Promised ⟨first, []⟩ s →
        ∀ req, d.Promised (.request req) s → d.Serves s req := by
  intro hall
  have hserves := hall ⟨0, 32⟩ (fun _ => 0) (by decide) (fun _ _ => rfl) _ .start
    { secondSector false with sector := 32 }
    ⟨rfl, fun k hk => (secondSector_accepts false ⟨fun _ => 0, []⟩).1.2 k hk⟩
  have honce := hserves.once
  rw [refused_twice rfl (by decide)] at honce
  exact absurd honce (by decide)

end Cs111Labs.Osprd
