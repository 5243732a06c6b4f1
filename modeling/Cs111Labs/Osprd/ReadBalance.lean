import Cs111Labs.Osprd.SelfBlock

/-!
# The counter of read locks over the life of a handle

`read_locks` counts what was granted, a handle has one flag.  What the counter
has too much at the end are the grants that found the flag set.
-/

namespace Cs111Labs.Osprd

open Foundation

variable {s s' : System} {pid : Pid} {filp : Handle} {file : File}

/-- The calls on a handle of one process, and what happens inside them. -/
def OnHandle (pid : Pid) (filp : Handle) : Action → Prop
  | .acquire caller handle | .tryAcquire caller handle
  | .release caller handle => caller = pid ∧ handle = filp
  | .resume caller | .signal caller | .proceed caller => caller = pid
  | .openFile _ _ _ | .share _ _ _ | .close _ _ => False

/-- The step ends with the lock taken. -/
def Grants : Action → System → Bool
  | .acquire pid filp, s =>
      (s.deviceDescriptor pid filp).any fun file =>
        !refusesAsDeadlock (takeTicket s pid) pid file.writable &&
          !hasToWait (takeTicket s pid) s.d.ticketHead file.writable
  | .tryAcquire pid filp, s =>
      (s.deviceDescriptor pid filp).any fun file =>
        s.d.writeLocks = 0 && (!file.writable || s.d.readLocks = 0) &&
          s.d.ticketHead = s.d.ticketTail
  | .proceed _, _ => true
  | _, _ => false

def System.flag (s : System) (filp : Handle) : Bool :=
  (s.files filp).any (·.locked)

/-- The grants that found the flag of the handle set. -/
def regrants (filp : Handle) : List Action → System → Nat
  | [], _ => 0
  | action :: actions, s =>
      (Grants action s && s.flag filp).toNat +
        (step action s).elim 0 (regrants filp actions)

/-- The counter has wrapped, and `osprd_close_last` leaves it alone. -/
def wrapped (filp : Handle) (s : System) : Nat :=
  (s.flag filp && s.d.readLocks = 0).toNat

/-! ## What a blocked call does -/

theorem resume_cases (h : step (.resume pid) s = some s') :
    ∃ place, s' = s.setPlace pid place ∧ s.place pid ≠ .outside ∧
      place ≠ .outside ∧ place.call = (s.place pid).call := by
  simp only [step] at h
  split at h
  · rename_i filp w ticketCur hplace
    rw [hplace]
    split at h
    · exact ⟨_, (Option.some.inj h).symm, by simp, by simp, rfl⟩
    · exact ⟨_, (Option.some.inj h).symm, by simp, by simp, rfl⟩
  · cases h

theorem signal_cases (h : step (.signal pid) s = some s') :
    (∃ place, s' = s.setPlace pid place ∧ s.place pid ≠ .outside ∧
      place ≠ .outside ∧ place.call = (s.place pid).call) ∨
    ∃ filp w ticketCur tail, (s.place pid).call = some (filp, w, ticketCur) ∧
      s' = (fput (System.setPlace { s with d := { s.d with ticketTail := tail } }
        pid .outside) filp).record (.returned pid .erestartsys) := by
  simp only [step] at h
  split at h
  · rename_i filp w ticketCur woken hplace
    rw [hplace]
    split at h
    · exact .inl ⟨_, (Option.some.inj h).symm, by simp, by simp, rfl⟩
    · obtain rfl := Option.some.inj h
      refine .inr ⟨filp, w, ticketCur, if ticketCur = s.d.ticketTail then
        s.d.ticketTail + 1 else s.d.ticketTail, rfl, ?_⟩
      unfold interrupt
      split <;> rfl
  · cases h

theorem proceed_cases (h : step (.proceed pid) s = some s') :
    ∃ filp w ticketCur, s.place pid = .scheduled filp w ticketCur ∧
      s' = fput ((grant s pid filp w ticketCur).setPlace pid .outside) filp := by
  simp only [step] at h
  split at h
  · rename_i filp w ticketCur hplace
    exact ⟨filp, w, ticketCur, hplace, (Option.some.inj h).symm⟩
  · cases h

/-! ## One handle -/

/-- A reader whose only references are a descriptor of `pid` and a call in
which `pid` may be blocked; the counter is `excess` above 0, its own lock not
counted. -/
structure Counted (s : System) (pid : Pid) (filp : Handle) (locked : Bool)
    (excess : Word) : Prop where
  file : s.files filp = some
    { onDevice := true, writable := false, locked := locked,
      count := if s.place pid = .outside then 1 else 2 }
  place : ∀ call, (s.place pid).call = some call →
    ∃ ticketCur, call = (filp, false, ticketCur)
  readLocks : s.d.readLocks = excess + (if locked then 1 else 0)

namespace Counted

variable {locked : Bool} {excess : Word}

theorem flag (h : Counted s pid filp locked excess) : s.flag filp = locked := by
  simp [System.flag, h.file]

/-- A step that leaves the handle and the counter alone. -/
theorem congr (h : Counted s pid filp locked excess) (hfiles : s'.files = s.files)
    (hplace : s'.place = s.place) (hread : s'.d.readLocks = s.d.readLocks) :
    Counted s' pid filp locked excess where
  file := by rw [hfiles, hplace, h.file]
  place := by rw [hplace]; exact h.place
  readLocks := hread.trans h.readLocks

theorem record (h : Counted s pid filp locked excess) (entry : Entry) :
    Counted (s.record entry) pid filp locked excess :=
  h.congr rfl rfl rfl

/-- The counter goes up, and the flag is set whether it was before or not. -/
theorem granted (h : Counted s pid filp locked excess)
    (hfiles : s'.files = (s.setLocked filp true).files) (hplace : s'.place = s.place)
    (hread : s'.d.readLocks = s.d.readLocks + 1) :
    Counted s' pid filp true (excess + BitVec.ofNat 32 locked.toNat) where
  file := by
    rw [hfiles, hplace]
    simp [System.setLocked, h.file]
  place := by rw [hplace]; exact h.place
  readLocks := by
    rw [hread, h.readLocks]
    cases locked with
    | true => rfl
    | false => simp

theorem descriptor (h : Counted s pid filp locked excess)
    (hfile : s.deviceDescriptor pid filp = some file) :
    s.place pid = .outside ∧ file.writable = false ∧ file.locked = locked := by
  obtain ⟨hidle, -, hfiles, -⟩ := deviceDescriptor_eq_some hfile
  have heq := hfiles.symm.trans h.file
  rw [Option.some.inj heq]
  exact ⟨hidle, rfl, rfl⟩

/-- A step at which nothing is granted. -/
theorem kept {locked' : Bool} {action : Action} (hnot : Grants action s = false)
    (h : Counted s' pid filp locked' excess) :
    Counted s' pid filp locked'
      (excess + BitVec.ofNat 32 (Grants action s && locked).toNat) := by
  simpa [hnot] using h

/-- The caller goes to sleep with a reference to the handle. -/
theorem waits (h : Counted s pid filp locked excess) (hidle : s.place pid = .outside)
    (hfiles : s'.files = (fget s filp).files) {ticketCur : Word} {woken : Bool}
    (hplace : s'.place pid = .waiting filp false ticketCur woken)
    (hread : s'.d.readLocks = s.d.readLocks) :
    Counted s' pid filp locked excess where
  file := by
    rw [hfiles, hplace]
    simp [fget, System.setFile, h.file, hidle]
  place := by
    rintro call hcall
    rw [hplace] at hcall
    exact ⟨ticketCur, (Option.some.inj hcall).symm⟩
  readLocks := hread.trans h.readLocks

theorem acquire (h : Counted s pid filp locked excess)
    (hfile : s.deviceDescriptor pid filp = some file) :
    ∃ locked', Counted (acquire s pid filp file.writable) pid filp locked'
      (excess + BitVec.ofNat 32
        (Grants (.acquire pid filp) s && locked).toNat) := by
  obtain ⟨hidle, hreader, -⟩ := h.descriptor hfile
  have hgrants : Grants (.acquire pid filp) s =
      (!refusesAsDeadlock (takeTicket s pid) pid false &&
        !hasToWait (takeTicket s pid) s.d.ticketHead false) := by
    simp [Grants, hfile, hreader]
  rw [hreader]
  unfold Osprd.acquire
  dsimp only
  split
  · rename_i hrefused
    refine ⟨locked, kept (by simp [hgrants, hrefused]) ?_⟩
    exact h.congr rfl rfl takeTicket_readLocks
  · rename_i hrefused
    split
    · rename_i hwait
      refine ⟨locked, kept (by simp [hgrants, hwait]) ?_⟩
      exact h.waits hidle rfl (Function.update_self ..) takeTicket_readLocks
    · rename_i hwait
      refine ⟨true, ?_⟩
      rw [hgrants, Bool.eq_false_of_not_eq_true hrefused,
        Bool.eq_false_of_not_eq_true hwait]
      exact h.granted rfl rfl (congrArg (· + 1) takeTicket_readLocks)

theorem tryAcquire (h : Counted s pid filp locked excess)
    (hfile : s.deviceDescriptor pid filp = some file) :
    ∃ locked', Counted (tryAcquire s pid filp file.writable) pid filp locked'
      (excess + BitVec.ofNat 32
        (Grants (.tryAcquire pid filp) s && locked).toNat) := by
  obtain ⟨-, hreader, -⟩ := h.descriptor hfile
  rw [hreader]
  unfold Osprd.tryAcquire
  rw [if_neg (by simp)]
  split
  · rename_i hbusy
    refine ⟨locked, kept ?_ (h.congr rfl rfl rfl)⟩
    rw [pos_iff] at hbusy
    simp only [Grants, hfile, Option.any_some, hreader, Bool.not_false,
      Bool.true_or, Bool.and_true, Bool.and_eq_false_iff, decide_eq_false_iff_not]
    exact hbusy
  · rename_i hfree
    rw [pos_iff, not_or, not_not, not_not] at hfree
    have hgrants : Grants (.tryAcquire pid filp) s = true := by
      simp [Grants, hfile, hreader, hfree.1, hfree.2]
    refine ⟨true, ?_⟩
    rw [hgrants]
    exact h.granted rfl rfl rfl

theorem release (h : Counted s pid filp locked excess)
    (hfile : s.deviceDescriptor pid filp = some file) :
    ∃ locked', Counted (release s pid filp file) pid filp locked' excess := by
  obtain ⟨hidle, hreader, hflag⟩ := h.descriptor hfile
  unfold Osprd.release
  dsimp only
  split
  · exact ⟨locked, h.congr rfl rfl rfl⟩
  · rename_i hlocked
    obtain rfl : locked = true := by simpa [← hflag] using hlocked
    refine ⟨false, ?_, ?_, ?_⟩
    · simp [System.setLocked, h.file, hidle, Place.wake]
    · intro call hcall
      simp [hidle, Place.wake] at hcall
    · have hread : s.d.readLocks = excess + 1 := h.readLocks
      simp only [hreader, hread, record_d, wakeUpAll_d, setLocked_d,
        Bool.false_eq_true, if_false]
      bv_omega

/-- A blocked call goes on to another place. -/
theorem moves (h : Counted s pid filp locked excess)
    (hblocked : s.place pid ≠ .outside) {place : Place} (hne : place ≠ .outside)
    (hcall : place.call = (s.place pid).call) :
    Counted (s.setPlace pid place) pid filp locked excess where
  file := by simp [h.file, hblocked, hne]
  place := by
    rw [setPlace_place, Function.update_self, hcall]
    exact h.place
  readLocks := h.readLocks

/-- The call returns and drops its reference. -/
theorem returns {s₁ : System} (h : Counted s pid filp locked excess)
    (hblocked : s.place pid ≠ .outside)
    (hfiles : s₁.files = s.files) (hplace : s₁.place pid = .outside)
    (hread : s₁.d.readLocks = s.d.readLocks) :
    Counted (fput s₁ filp) pid filp locked excess := by
  have hfile : s₁.files filp = some
      { onDevice := true, writable := false, locked := locked, count := 2 } := by
    rw [hfiles, h.file, if_neg hblocked]
  rw [fput_of_shared hfile Nat.one_lt_two]
  exact {
    file := by simp [hplace]
    place := by simp [hplace]
    readLocks := hread.trans h.readLocks }

theorem step (h : Counted s pid filp locked excess) {action : Action}
    (hon : OnHandle pid filp action) (hstep : step action s = some s') :
    ∃ locked', Counted s' pid filp locked'
      (excess + BitVec.ofNat 32 (Grants action s && locked).toNat) := by
  cases action with
  | acquire caller handle =>
      obtain ⟨rfl, rfl⟩ := hon
      obtain ⟨file, hfile, rfl⟩ := Option.map_eq_some_iff.mp hstep
      exact h.acquire hfile
  | tryAcquire caller handle =>
      obtain ⟨rfl, rfl⟩ := hon
      obtain ⟨file, hfile, rfl⟩ := Option.map_eq_some_iff.mp hstep
      exact h.tryAcquire hfile
  | release caller handle =>
      obtain ⟨rfl, rfl⟩ := hon
      obtain ⟨file, hfile, rfl⟩ := Option.map_eq_some_iff.mp hstep
      obtain ⟨locked', hnext⟩ := h.release hfile
      exact ⟨locked', kept rfl hnext⟩
  | resume caller =>
      obtain rfl : caller = pid := hon
      obtain ⟨place, rfl, hblocked, hne, hcall⟩ := resume_cases hstep
      exact ⟨locked, kept rfl (h.moves hblocked hne hcall)⟩
  | signal caller =>
      obtain rfl : caller = pid := hon
      rcases signal_cases hstep with ⟨place, rfl, hblocked, hne, hcall⟩ |
        ⟨handle, w, ticketCur, tail, hcall, rfl⟩
      · exact ⟨locked, kept rfl (h.moves hblocked hne hcall)⟩
      · obtain ⟨_, heq⟩ := h.place _ hcall
        obtain rfl : handle = filp := (Prod.mk.inj heq).1
        refine ⟨locked, kept rfl ?_⟩
        have hblocked : s.place caller ≠ .outside := by
          intro houtside
          simp [houtside] at hcall
        apply Counted.record
        exact h.returns hblocked rfl (Function.update_self ..) rfl
  | proceed caller =>
      obtain rfl : caller = pid := hon
      obtain ⟨handle, w, ticketCur, hplace, rfl⟩ := proceed_cases hstep
      obtain ⟨_, heq⟩ := h.place (handle, w, ticketCur) (by simp [hplace, Place.call])
      obtain ⟨rfl, hrest⟩ := Prod.mk.inj heq
      obtain ⟨rfl, -⟩ := Prod.mk.inj hrest
      refine ⟨true, ?_⟩
      have hgrant : Counted (grant s caller handle false ticketCur) caller handle true
          (excess + BitVec.ofNat 32 locked.toNat) := h.granted rfl rfl rfl
      have hblocked : (grant s caller handle false ticketCur).place caller ≠
          .outside := by
        rw [show (grant s caller handle false ticketCur).place = s.place from rfl,
          hplace]
        simp
      exact hgrant.returns hblocked rfl (Function.update_self ..) rfl
  | openFile _ _ _ | share _ _ _ | close _ _ => exact hon.elim

end Counted

/-! ## The life of a handle -/

variable {locked : Bool} {excess : Word}

theorem Counted.run {actions : List Action} (h : Counted s pid filp locked excess)
    (hon : ∀ action ∈ actions, OnHandle pid filp action)
    (hrun : runEvents Osprd.step actions s = some s') :
    ∃ locked', Counted s' pid filp locked'
      (excess + BitVec.ofNat 32 (regrants filp actions s)) := by
  induction actions generalizing s locked excess with
  | nil =>
      obtain rfl := Option.some.inj hrun
      exact ⟨locked, by simpa [regrants] using h⟩
  | cons action actions ih =>
      obtain ⟨hfirst, hon⟩ := List.forall_mem_cons.mp hon
      obtain ⟨next, hnext, hrest⟩ := Option.bind_eq_some_iff.mp hrun
      obtain ⟨locked₁, hcounted⟩ := h.step hfirst hnext
      obtain ⟨locked₂, hend⟩ := ih hcounted hon hrest
      refine ⟨locked₂, ?_⟩
      rw [regrants, hnext, h.flag, BitVec.ofNat_add, ← BitVec.add_assoc]
      exact hend

theorem counted_opened (h : step (.openFile pid true false) s = some s') :
    Counted s' pid s.nextHandle false s.d.readLocks := by
  simp only [step] at h
  split at h
  · rename_i hidle
    obtain rfl := Option.some.inj h
    exact {
      file := by simp [hidle]
      place := by simp [hidle]
      readLocks := by simp }
  · cases h

theorem Counted.closed (h : Counted s pid filp locked excess)
    (hclose : Osprd.step (.close pid filp) s = some s') :
    s'.d.readLocks = excess + BitVec.ofNat 32 (wrapped filp s) := by
  obtain ⟨file, hfile, rfl⟩ := Option.map_eq_some_iff.mp hclose
  obtain ⟨hidle, -, -⟩ := descriptor_eq_some hfile
  have hopen := h.file
  rw [if_pos hidle] at hopen
  unfold fput
  simp only [hopen, lt_irrefl, if_false, if_true]
  rw [osprdCloseLast_readLocks]
  have hread := h.readLocks
  cases locked with
  | false => simp [wrapped, h.flag, hread]
  | true =>
      have hone : s.d.readLocks = excess + 1 := hread
      simp only [Bool.false_eq_true, if_false, wrapped, h.flag, hone, and_true,
        Bool.true_and]
      by_cases hzero : excess + 1 = 0
      · rw [if_neg (by rw [hzero]; decide), decide_eq_true hzero]
        rfl
      · rw [if_pos ((pos_iff _).mpr hzero), decide_eq_false hzero,
          Bool.toNat_false]
        bv_omega

/-- Where the handle is closed the counter is too high by the grants that found
the flag set, and by one if it had wrapped. -/
theorem readLocks_balance_iff {s₁ s₂ : System} {actions : List Action}
    (hopen : step (.openFile pid true false) s = some s₁)
    (hon : ∀ action ∈ actions, OnHandle pid s.nextHandle action)
    (hrun : runEvents step actions s₁ = some s₂)
    (hclose : step (.close pid s.nextHandle) s₂ = some s') :
    s'.d.readLocks = s.d.readLocks ↔
      2 ^ 32 ∣ regrants s.nextHandle actions s₁ + wrapped s.nextHandle s₂ := by
  obtain ⟨locked, hcounted⟩ := (counted_opened hopen).run hon hrun
  rw [hcounted.closed hclose, BitVec.add_assoc, ← BitVec.ofNat_add]
  generalize regrants s.nextHandle actions s₁ + wrapped s.nextHandle s₂ = n
  rw [Nat.dvd_iff_mod_eq_zero, ← BitVec.toNat_ofNat]
  constructor
  · intro h
    have hzero : BitVec.ofNat 32 n = 0 := by bv_omega
    rw [hzero]
    rfl
  · intro h
    have hzero : BitVec.ofNat 32 n = 0 := BitVec.eq_of_toNat_eq h
    rw [hzero]
    bv_omega

theorem readLocks_balance_iff_once :
    ∃ s s₁ s₂ s', runEvents step [.openFile 0 true false] osprdSetup = some s ∧
      step (.openFile 1 true false) s = some s₁ ∧
      runEvents step [.tryAcquire 1 1, .release 1 1] s₁ = some s₂ ∧
      step (.close 1 1) s₂ = some s' ∧
      (s'.d.readLocks = s.d.readLocks ↔
        2 ^ 32 ∣ regrants 1 [.tryAcquire 1 1, .release 1 1] s₁ + wrapped 1 s₂) :=
  ⟨_, _, _, _, rfl, rfl, rfl, rfl,
    readLocks_balance_iff (show step (.openFile 1 true false) _ = some _ from rfl)
      (by simp [OnHandle]; rfl)
      (show runEvents step [.tryAcquire 1 1, .release 1 1] _ = some _ from rfl) rfl⟩

/-- The handle takes the lock twice, and closing it gives one of them back. -/
theorem twice_not_balanced :
    ¬ ∀ s s₁ s₂ s' pid actions, step (.openFile pid true false) s = some s₁ →
      (∀ action ∈ actions, OnHandle pid s.nextHandle action) →
      runEvents step actions s₁ = some s₂ →
      step (.close pid s.nextHandle) s₂ = some s' →
        s'.d.readLocks = s.d.readLocks := by
  intro hall
  obtain ⟨s₁, s₂, s', hopen, hrun, hclose, hleft⟩ : ∃ s₁ s₂ s',
      step (.openFile 0 true false) osprdSetup = some s₁ ∧
      runEvents step [.tryAcquire 0 0, .tryAcquire 0 0] s₁ = some s₂ ∧
      step (.close 0 0) s₂ = some s' ∧ s'.d.readLocks = 1 :=
    ⟨_, _, _, rfl, rfl, rfl, rfl⟩
  have hzero := hall osprdSetup s₁ s₂ s' 0 [.tryAcquire 0 0, .tryAcquire 0 0] hopen
    (by simp [OnHandle]; rfl) hrun hclose
  rw [hleft] at hzero
  exact absurd hzero (by decide)

end Cs111Labs.Osprd
