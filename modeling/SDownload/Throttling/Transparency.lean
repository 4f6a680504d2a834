import SDownload.Throttling.FixedWindow
import SDownload.Throttling.TokenBucket

/-!
# SDownload.Throttling.Transparency

When the throttlers hand on what they are given.

Both divide by the speed that is asked for, and neither looks whether it is 0:
`calc_threshold` does, and makes the fixed window check the next piece at once. The token
bucket comes to its division when it cannot pay for the bytes of a check, and at a speed
of 0 it can pay for none.
-/

namespace SDownload

variable {κ : Type}

/-- **The throttlers are transparent** exactly when they do not divide by a speed of 0: the fixed
window when no piece is followed by one, the token bucket when the bytes since the speed became 0
are none, or too few for a check. -/
theorem throttlers_transparent_iff (fixed : FixedWindowThrottler) (bucket : TokenBucketThrottler)
    (clock : ℚ) (target : Option ℚ) (stats : ChunkDownloadStats κ) (turns : List Turn) :
    (fixed.throttler.Transparent clock target stats turns ↔
      ∀ turn ∈ turns, turn.reading.target ≠ some 0) ∧
    (bucket.throttler.Transparent clock target stats turns ↔
      ∀ n ∈ TokenBucketThrottler.bytesAtZero 0 turns, n = 0 ∨ (n : Int) < bucket.minChunkSize) := by
  refine ⟨?_, ?_⟩
  · rw [Throttler.transparent_iff]
    exact FixedWindowThrottler.unbroken_iff nofun
  · rw [Throttler.transparent_iff]
    exact TokenBucketThrottler.unbroken_iff nofun fun _ => rfl

/-- One piece, after which the speed asked for is 0. -/
def stoppedAfter (data : Bytes) : List Turn := [⟨data, 0, ⟨some 0, 0, 0, 0⟩⟩]

theorem bytesAtZero_stoppedAfter (data : Bytes) :
    TokenBucketThrottler.bytesAtZero 0 (stoppedAfter data) = [data.length] := by
  simp [stoppedAfter, TokenBucketThrottler.bytesAtZero]

/-- A limit of 0: the fixed window raises after any piece, the token bucket after one of the least
size it checks. -/
theorem throttlers_divide_by_zero :
    let stats : ChunkDownloadStats Unit :=
      { chunkFileName := "a", range := ⟨0, none⟩, fileSize := none }
    let fixed : FixedWindowThrottler := {}
    let bucket : TokenBucketThrottler := {}
    (fixed.throttler.wrap 0 none stats (stoppedAfter [1])).raised = true ∧
      ¬ fixed.throttler.Transparent 0 none stats (stoppedAfter [1]) ∧
      (bucket.throttler.wrap 0 none stats (stoppedAfter (List.replicate 32768 1))).raised = true ∧
      ¬ bucket.throttler.Transparent 0 none stats (stoppedAfter (List.replicate 32768 1)) := by
  intro stats fixed bucket
  have hfixed : ¬ fixed.throttler.Unbroken (fixed.start 0 none) (stoppedAfter [1]) := by
    have hnew : (fixed.start 0 none).lastTarget ≠ some 0 := nofun
    intro h
    exact (FixedWindowThrottler.unbroken_iff hnew).mp h _ List.mem_cons_self rfl
  have hbucket : ¬ bucket.throttler.Unbroken (TokenBucketThrottler.start 0 none)
      (stoppedAfter (List.replicate 32768 1)) := by
    have hnew : (TokenBucketThrottler.start 0 none).lastTarget ≠ some 0 := nofun
    intro h
    have hharmless := (TokenBucketThrottler.unbroken_iff (absurd · hnew) fun _ => rfl).mp h
    rw [bytesAtZero_stoppedAfter, List.length_replicate] at hharmless
    exact absurd (hharmless _ List.mem_cons_self) (by decide)
  have hraised : ∀ {σ : Type} {throttler : Throttler σ} {l : σ} {turns : List Turn},
      ¬ throttler.Unbroken l turns → (throttler.wrapFrom l stats turns).raised = true := by
    intro σ throttler l turns h
    by_contra hfalse
    exact h ((Throttler.wrapFrom_spec l stats turns).1.mp (Bool.not_eq_true _ ▸ hfalse))
  exact ⟨hraised hfixed, fun h => hfixed (Throttler.transparent_iff.mp h), hraised hbucket,
    fun h => hbucket (Throttler.transparent_iff.mp h)⟩

end SDownload
