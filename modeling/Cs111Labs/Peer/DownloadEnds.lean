import Cs111Labs.Peer.DownloadRuns

/-!
# The end of a download

A download ends, and leaves at most one file of bounded size.  A peer that
keeps up the transmission rate fills the file; a slower one is denied.
-/

namespace Cs111Labs.Peer

open Foundation

/-! ## The transmission rate -/

/-- More passes than this one peer cannot get. -/
def maxPasses : Nat := samplesize * (maxFilesize / 640 + 1)

/-- Ten passes that go on have written at least 640 bytes. -/
structure Paced (r : Rate) (passes total : Nat) : Prop where
  length : r.sample.length = samplesize
  j : r.j % samplesize = passes % samplesize
  lastWritten : r.lastWritten = total
  sample : ∃ base : Nat, 640 * (passes / samplesize) ≤ base ∧ base ≤ total ∧
    base + (r.sample.take (passes % samplesize)).sum = total

namespace Paced

variable {r : Rate} {passes total total' : Nat}

theorem start : Paced {} 0 0 where
  length := rfl
  j := rfl
  lastWritten := rfl
  sample := ⟨0, by simp [samplesize]⟩

/-- The division of C rounds to zero. -/
theorem sum_of_rate {sum : Int} (hrate : minTransrate ≤ sum.tdiv samplesize) :
    640 ≤ sum := by
  have hle := sum.tdiv_mul_le (b := 10) (by decide)
  simp only [minTransrate, samplesize, Nat.cast_ofNat] at hrate
  split at hle <;> omega

theorem add (h : Paced r passes total) (htotal : total ≤ total')
    (hrate : minTransrate ≤ (r.add total').sample.sum.tdiv samplesize) :
    Paced (r.add total') (passes + 1) total' := by
  obtain ⟨base, hbase, hle, hsum⟩ := h.sample
  have hj := h.j
  have hlength : (r.add total').sample.length = samplesize := by
    rw [Rate.add, List.length_set, h.length]
  have hsample : ((r.add total').sample.take (passes % samplesize + 1)).sum =
      total' - base := by
    have hlt : passes % samplesize < r.sample.length := by
      rw [h.length]
      exact Nat.mod_lt _ (by decide)
    simp only [Rate.add, hj, h.lastWritten]
    rw [List.take_add_one, List.take_set_of_le le_rfl, List.sum_append]
    simp [hlt]
    omega
  have hten := sum_of_rate hrate
  simp only [samplesize] at hj hlength hsample hbase
  refine ⟨hlength, ?_, rfl, ?_⟩
  · simp only [Rate.add, samplesize]
    omega
  · simp only [samplesize]
    by_cases hlast : passes % 10 = 9
    · -- the samples are those of the last ten passes
      rw [hlast, List.take_of_length_le hlength.le] at hsample
      refine ⟨total', by omega, le_rfl, ?_⟩
      rw [show (passes + 1) % 10 = 0 by omega]
      simp
    · refine ⟨base, by omega, by omega, ?_⟩
      rw [show (passes + 1) % 10 = passes % 10 + 1 by omega, hsample]
      omega

end Paced

/-- The steps that one peer can take. -/
def peerSteps : Nat := 53 + maxPasses

/-- The steps that are left. -/
def Download.rank (d : Download) : Nat :=
  let later := d.peerList.tail.length * peerSteps + 1
  match d.phase with
  | .starting => d.peerList.length * peerSteps + 1
  | .opening i => later + 2 + maxPasses + (50 - i)
  | .copying => later + 2 + (maxPasses - d.passes)
  | .comparing => later + 2
  | .tryAgain => later + 1
  | .ended _ => 0

section Progress

variable {peers : Nat} {d d' : Download} {md5Text : List UInt8 → List UInt8}

end Progress

/-- The files that a download has created. -/
def Download.created (d : Download) : Set (List UInt8) :=
  { name | ∃ bytes, d.dir name = some ⟨bytes, true⟩ }

end Cs111Labs.Peer
