import Cs111Labs.Foundation.ReadersWriter
import Cs111Labs.Osprd.References

/-!
# Tickets and counters

Blocked calls hold different tickets, and a call that is past its wait is the
one that is served.  The counters of the device stand for a readers-writer lock
whose holders are the files with `F_OSPRD_LOCKED`.
-/

namespace Cs111Labs.Osprd

open Foundation

variable {s s' : System} {pid : Pid} {filp filp' : Handle}
  {file : File} {filpWritable : Bool} {ticketCur : Word} {lock : ReadersWriter Handle}

/-- The mode in which a file holds the lock. -/
def File.lockMode (file : File) : Option Bool :=
  if file.onDevice && file.locked then some file.writable else none

def System.lockMode (s : System) (filp : Handle) : Option Bool :=
  (s.files filp).bind File.lockMode

theorem Place.wake_eq_scheduled {place : Place} {filpWritable : Bool}
    {ticketCur : Word} :
    place.wake = .scheduled filp filpWritable ticketCur ↔
      place = .scheduled filp filpWritable ticketCur := by
  cases place <;> simp [Place.wake]

theorem Place.call_of_scheduled {filpWritable : Bool} {ticketCur : Word}
    (h : s.place pid = .scheduled filp filpWritable ticketCur) :
    (s.place pid).call = some (filp, filpWritable, ticketCur) := by
  rw [h]
  rfl

structure Tickets (s : System) : Prop where
  ne_head : ∀ pid filp filpWritable ticketCur,
    (s.place pid).call = some (filp, filpWritable, ticketCur) →
      ticketCur ≠ s.d.ticketHead
  injective : ∀ pid pid' filp filp' filpWritable filpWritable' ticketCur,
    (s.place pid).call = some (filp, filpWritable, ticketCur) →
      (s.place pid').call = some (filp', filpWritable', ticketCur) → pid = pid'
  scheduled : ∀ pid filp filpWritable ticketCur,
    s.place pid = .scheduled filp filpWritable ticketCur →
      condition s.d ticketCur filpWritable = true

/-- The counters, flags and history stand for `lock`. -/
structure Represents (s : System) (lock : ReadersWriter Handle) : Prop where
  writer_iff : ∀ filp, lock.writer = some filp ↔ s.lockMode filp = some true
  reader_iff : ∀ filp, filp ∈ lock.readers ↔ s.lockMode filp = some false
  writeLocks_ne : lock.writer.isSome → s.d.writeLocks ≠ 0
  card_le : lock.readers.card ≤ s.d.readLocks.toNat
  counters : s.d.writeLocks ≠ 0 → s.d.readLocks = 0
  holds_iff : ∀ filp, Holds filp s.log = true ↔ (s.lockMode filp).isSome

structure DeviceInvariant (s : System) : Prop where
  references : References s
  tickets : Tickets s
  represents : ∃ lock, Represents s lock

theorem condition_iff {d : Device} :
    condition d ticketCur filpWritable = true ↔
      d.writeLocks = 0 ∧ (filpWritable = true → d.readLocks = 0) ∧
        ticketCur = d.ticketTail := by
  cases filpWritable <;> simp [condition]

theorem pos_iff (w : Word) : 0 < w ↔ w ≠ 0 := BitVec.pos_iff_ne_zero w

theorem hasToWait_eq (d : Device) (ticketCur : Word) (filpWritable : Bool) :
    hasToWait d ticketCur filpWritable = !condition d ticketCur filpWritable := by
  rw [Bool.eq_iff_iff]
  cases filpWritable <;> simp only [hasToWait, condition, pos_iff, decide_eq_true_eq,
    Bool.not_eq_true', decide_eq_false_iff_not, Bool.false_eq_true, if_false,
    if_true, ne_eq, not_and_or]

/-! ## The condition on a step -/

namespace System

/-- The last reference to a file that is open for writing and does not hold the
lock goes away while another file holds the write lock. -/
def ClosesBesideWriter (s : System) (filp : Handle) : Prop :=
  ∃ file, s.files filp = some file ∧ file.count ≤ 1 ∧ file.onDevice = true ∧
    file.writable = true ∧ file.locked = false ∧
      ∃ other, s.lockMode other = some true

/-- The ticket after the next one belongs to a call that is still blocked. -/
def TicketsWrap (s : System) : Prop :=
  ∃ pid filp filpWritable,
    (s.place pid).call = some (filp, filpWritable, s.d.ticketHead + 1)

end System

/-- The call is granted a read lock at this step. -/
def GrantsReader : Action → System → Prop
  | .acquire pid filp, s =>
      ∃ file, s.deviceDescriptor pid filp = some file ∧ file.writable = false ∧
        refusesAsDeadlock (takeTicket s pid) pid false = false ∧
        hasToWait (takeTicket s pid) s.d.ticketHead false = false
  | .tryAcquire pid filp, s =>
      ∃ file, s.deviceDescriptor pid filp = some file ∧ file.writable = false ∧
        s.d.writeLocks = 0 ∧ s.d.ticketHead = s.d.ticketTail
  | .proceed pid, s =>
      ∃ filp ticketCur, s.place pid = .scheduled filp false ticketCur
  | _, _ => False

structure Careful (action : Action) (s : System) : Prop where
  closes : ∀ pid filp, action = .close pid filp → ¬ s.ClosesBesideWriter filp
  tickets : ∀ pid filp, action = .acquire pid filp → ¬ s.TicketsWrap
  readers : GrantsReader action s → s.d.readLocks + 1 ≠ 0

/-! ## Tickets -/

namespace Tickets

theorem mono (h : Tickets s) (hhead : s'.d.ticketHead = s.d.ticketHead)
    (hcalls : ∀ pid call, (s'.place pid).call = some call →
      (s.place pid).call = some call)
    (hscheduled : ∀ pid filp filpWritable ticketCur,
      s'.place pid = .scheduled filp filpWritable ticketCur →
        condition s'.d ticketCur filpWritable = true) : Tickets s' where
  ne_head pid filp filpWritable ticketCur hcall := by
    rw [hhead]
    exact h.ne_head _ _ _ _ (hcalls _ _ hcall)
  injective pid pid' filp filp' _ _ ticketCur hcall hcall' :=
    h.injective _ _ _ _ _ _ _ (hcalls _ _ hcall) (hcalls _ _ hcall')
  scheduled := hscheduled

/-- The next ticket is taken, by `pid` if its call goes on. -/
theorem draw (h : Tickets s) (pid : Pid) (hwrap : ¬ s.TicketsWrap)
    (hhead : s'.d.ticketHead = s.d.ticketHead + 1)
    (hcalls : ∀ other call, (s'.place other).call = some call →
      (s.place other).call = some call ∨ other = pid ∧ call.2.2 = s.d.ticketHead)
    (hscheduled : ∀ pid filp filpWritable ticketCur,
      s'.place pid = .scheduled filp filpWritable ticketCur →
        condition s'.d ticketCur filpWritable = true) : Tickets s' where
  ne_head other filp filpWritable ticketCur hcall := by
    rw [hhead]
    rcases hcalls _ _ hcall with hold | ⟨-, hnew⟩
    · rintro rfl
      exact hwrap ⟨_, _, _, hold⟩
    · obtain rfl : ticketCur = s.d.ticketHead := hnew
      simp
  injective other other' filp filp' _ _ ticketCur hcall hcall' := by
    rcases hcalls _ _ hcall with hold | ⟨rfl, hnew⟩ <;>
      rcases hcalls _ _ hcall' with hold' | ⟨heq, hnew'⟩
    · exact h.injective _ _ _ _ _ _ _ hold hold'
    · exact absurd hnew' (h.ne_head _ _ _ _ hold)
    · exact absurd hnew (h.ne_head _ _ _ _ hold')
    · exact heq.symm
  scheduled := hscheduled

/-- Only one request is served at a time. -/
theorem scheduled_unique (h : Tickets s)
    (hcall : (s.place pid).call = some (filp, filpWritable, ticketCur))
    (hturn : ticketCur = s.d.ticketTail) {other : Pid} {otherFilp : Handle}
    {otherWritable : Bool} {otherTicket : Word}
    (hother : s.place other = .scheduled otherFilp otherWritable otherTicket) :
    other = pid := by
  have hticket := (condition_iff.mp (h.scheduled _ _ _ _ hother)).2.2
  have hsame : otherTicket = ticketCur := hticket.trans hturn.symm
  subst hsame
  exact h.injective _ _ _ _ _ _ _ (Place.call_of_scheduled hother) hcall

/-- While nobody has drawn a ticket that is not served, no call is between
`wait_event_interruptible` and its grant. -/
theorem not_scheduled (h : Tickets s) (hidle : s.d.ticketHead = s.d.ticketTail)
    (pid : Pid) (filp : Handle) (filpWritable : Bool) (ticketCur : Word) :
    s.place pid ≠ .scheduled filp filpWritable ticketCur := by
  intro hplace
  have hticket := (condition_iff.mp (h.scheduled _ _ _ _ hplace)).2.2
  exact h.ne_head _ _ _ _ (Place.call_of_scheduled hplace)
    (hticket.trans hidle.symm)

end Tickets

/-! ## The lock that the counters stand for -/

namespace Represents

theorem congr (h : Represents s lock) (hwrite : s'.d.writeLocks = s.d.writeLocks)
    (hread : s'.d.readLocks = s.d.readLocks)
    (hmode : ∀ filp, s'.lockMode filp = s.lockMode filp)
    (hholds : ∀ filp, Holds filp s'.log = Holds filp s.log) :
    Represents s' lock where
  writer_iff filp := by rw [hmode, h.writer_iff]
  reader_iff filp := by rw [hmode, h.reader_iff]
  writeLocks_ne := hwrite ▸ h.writeLocks_ne
  card_le := hread ▸ h.card_le
  counters := by
    rw [hwrite, hread]
    exact h.counters
  holds_iff filp := by rw [hmode, hholds, h.holds_iff]

theorem writeLocks_ne_of_mode (h : Represents s lock)
    (hmode : s.lockMode filp = some true) : s.d.writeLocks ≠ 0 :=
  h.writeLocks_ne (by rw [(h.writer_iff filp).mpr hmode]; rfl)

theorem readLocks_pos_of_mode (h : Represents s lock)
    (hmode : s.lockMode filp = some false) : 0 < s.d.readLocks.toNat :=
  Nat.lt_of_lt_of_le (Finset.card_pos.mpr ⟨filp, (h.reader_iff filp).mpr hmode⟩)
    h.card_le

theorem readLocks_ne_of_mode (h : Represents s lock)
    (hmode : s.lockMode filp = some false) : s.d.readLocks ≠ 0 := by
  intro hzero
  have hpos := h.readLocks_pos_of_mode hmode
  simp [hzero] at hpos

theorem writeLocks_eq_of_mode (h : Represents s lock)
    (hmode : s.lockMode filp = some false) : s.d.writeLocks = 0 := by
  by_contra hne
  exact h.readLocks_ne_of_mode hmode (h.counters hne)

theorem mode_eq_none (h : Represents s lock) (hwrite : s.d.writeLocks = 0)
    (hread : s.d.readLocks = 0) (filp : Handle) : s.lockMode filp = none := by
  cases hmode : s.lockMode filp with
  | none => rfl
  | some writable =>
      cases writable with
      | true => exact absurd hwrite (h.writeLocks_ne_of_mode hmode)
      | false => exact absurd hread (h.readLocks_ne_of_mode hmode)

theorem grantWrite (h : Represents s lock) (hwrite : s.d.writeLocks = 0)
    (hread : s.d.readLocks = 0)
    (hwrite' : s'.d.writeLocks = s.d.writeLocks + 1)
    (hread' : s'.d.readLocks = s.d.readLocks)
    (hmode : s'.lockMode = Function.update s.lockMode filp (some true))
    (hholds : ∀ other, Holds other s'.log =
      if filp = other then true else Holds other s.log) :
    Represents s' (.grantWrite filp) := by
  have hfree := h.mode_eq_none hwrite hread
  have hmode' : ∀ other, s'.lockMode other =
      if other = filp then some true else none := by
    intro other
    rw [hmode]
    split <;> simp_all
  refine ⟨?_, ?_, ?_, ?_, ?_, ?_⟩
  · intro other
    rw [hmode']
    simp [ReadersWriter.grantWrite, eq_comm]
  · intro other
    rw [hmode']
    simp [ReadersWriter.grantWrite]
  · intro _
    simp [hwrite', hwrite]
  · simp [ReadersWriter.grantWrite]
  · intro _
    rw [hread', hread]
  · intro other
    have hnot : ¬ (Holds other s.log = true) := by
      rw [h.holds_iff, hfree]
      simp
    rw [hholds, hmode']
    by_cases hother : other = filp
    · simp [hother]
    · simpa [hother, Ne.symm hother] using hnot

theorem grantRead (h : Represents s lock) (hwrite : s.d.writeLocks = 0)
    (hroom : s.d.readLocks + 1 ≠ 0)
    (hwrite' : s'.d.writeLocks = s.d.writeLocks)
    (hread' : s'.d.readLocks = s.d.readLocks + 1)
    (hmode : s'.lockMode = Function.update s.lockMode filp (some false))
    (hholds : ∀ other, Holds other s'.log =
      if filp = other then true else Holds other s.log) :
    Represents s' (lock.grantRead filp) := by
  have hnone : lock.writer = none := by
    cases hwriter : lock.writer with
    | none => rfl
    | some writer =>
        exact absurd hwrite (h.writeLocks_ne (by simp [hwriter]))
  have hmode' : ∀ other, s'.lockMode other =
      if other = filp then some false else s.lockMode other := by
    intro other
    rw [hmode, Function.update_apply]
  refine ⟨?_, ?_, ?_, ?_, ?_, ?_⟩
  · intro other
    have hold := h.writer_iff other
    rw [hmode']
    split <;> simp_all [ReadersWriter.grantRead]
  · intro other
    have hold := h.reader_iff other
    rw [hmode']
    split <;> simp_all [ReadersWriter.grantRead]
  · simp [ReadersWriter.grantRead]
  · have hcard := Finset.card_insert_le filp lock.readers
    have hle := h.card_le
    have hadd : s'.d.readLocks.toNat = s.d.readLocks.toNat + 1 := by
      rw [hread']
      bv_omega
    simp only [ReadersWriter.grantRead]
    omega
  · intro hne
    exact absurd (hwrite'.trans hwrite) hne
  · intro other
    rw [hholds, hmode']
    by_cases hother : other = filp
    · simp [hother]
    · simpa [hother, Ne.symm hother] using h.holds_iff other

theorem giveBack (h : Represents s lock) {writable : Bool}
    (hfilp : s.lockMode filp = some writable)
    (hwrite' : writable = false → s'.d.writeLocks = s.d.writeLocks)
    (hread' : s'.d.readLocks =
      if writable then s.d.readLocks else s.d.readLocks - 1)
    (hmode : s'.lockMode = Function.update s.lockMode filp none)
    (hholds : ∀ other, Holds other s'.log =
      if filp = other then false else Holds other s.log) :
    Represents s' (lock.giveBack filp) := by
  have hmode' : ∀ other, s'.lockMode other =
      if other = filp then none else s.lockMode other := by
    intro other
    rw [hmode, Function.update_apply]
  refine ⟨?_, ?_, ?_, ?_, ?_, ?_⟩
  · intro other
    have hold := h.writer_iff other
    rw [hmode']
    split <;> simp_all [ReadersWriter.giveBack, Option.filter_eq_some_iff]
  · intro other
    have hold := h.reader_iff other
    rw [hmode']
    split <;> simp_all [ReadersWriter.giveBack]
  · intro hsome
    cases hwriter : lock.writer with
    | none => simp [ReadersWriter.giveBack, hwriter] at hsome
    | some writer =>
        -- Another file holds the write lock, so `filp` does not hold a lock.
        have hne : writer ≠ filp := by
          rintro rfl
          simp [ReadersWriter.giveBack, hwriter] at hsome
        have hholder : lock.Holds filp := by
          cases writable with
          | true => exact .inl ((h.writer_iff filp).mpr hfilp)
          | false => exact .inr ((h.reader_iff filp).mpr hfilp)
        exact absurd (ReadersWriter.holds_of_writer hwriter hholder).symm hne
  · cases writable with
    | true =>
        rw [hread']
        exact (Finset.card_erase_le).trans h.card_le
    | false =>
        have hmem := (h.reader_iff filp).mpr hfilp
        have hcard := Finset.card_erase_of_mem hmem
        have hle := h.card_le
        have hpos := h.readLocks_pos_of_mode hfilp
        have hsub : s'.d.readLocks.toNat = s.d.readLocks.toNat - 1 := by
          rw [hread']
          simp only [Bool.false_eq_true, if_false]
          bv_omega
        simp only [ReadersWriter.giveBack]
        omega
  · intro hne
    cases writable with
    | true => rw [hread', if_pos rfl, h.counters (h.writeLocks_ne_of_mode hfilp)]
    | false =>
        rw [hwrite' rfl] at hne
        exact absurd (h.writeLocks_eq_of_mode hfilp) hne
  · intro other
    rw [hholds, hmode']
    by_cases hother : other = filp
    · simp [hother]
    · simpa [hother, Ne.symm hother] using h.holds_iff other

/-- A file that holds no lock is closed while nobody holds the write lock. -/
theorem clearWrite (h : Represents s lock)
    (hnone : ∀ other, s.lockMode other ≠ some true)
    (hwrite' : s'.d.writeLocks = 0) (hread' : s'.d.readLocks = s.d.readLocks)
    (hmode : ∀ other, s'.lockMode other = s.lockMode other)
    (hholds : ∀ other, Holds other s'.log = Holds other s.log) :
    Represents s' lock where
  writer_iff other := by rw [hmode, h.writer_iff]
  reader_iff other := by rw [hmode, h.reader_iff]
  writeLocks_ne hsome := by
    obtain ⟨writer, hwriter⟩ := Option.isSome_iff_exists.mp hsome
    exact absurd ((h.writer_iff writer).mp hwriter) (hnone writer)
  card_le := hread' ▸ h.card_le
  counters hne := absurd hwrite' hne
  holds_iff other := by rw [hmode, hholds, h.holds_iff]

end Represents

/-! ## The steps -/

end Cs111Labs.Osprd
