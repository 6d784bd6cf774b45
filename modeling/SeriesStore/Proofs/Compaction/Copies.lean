import SeriesStore.Proofs.Compaction.Cycles
import SeriesStore.Proofs.Disk.Failures

/-!
# Sources that stay

Once a new index is complete its sources are removed. A source that cannot be removed stays beside
the new index, so that its chunks are there twice, and they stay so over all further cycles.
-/

namespace SeriesStore

open Index SeriesStore.Path SeriesStore.Tree

/-! ### What never removes a directory -/

namespace DiskM.Heedless

lemma segmentWrite (path : Path) (es : List Entry) : Heedless (Segment.write path es) := by
  rw [Segment.write]
  refine bind (tryCatch ?_ fun e => (remove _).attempt.bind fun _ => (throw e).bind fun _ => pure _)
    fun r => ?_
  · cases Layout.oversized? es with
    | some n => exact (write _ _).bind fun _ => (throw _).bind fun _ =>
        (rename _ _).bind fun _ => pure _
    | none => exact (write _ _).bind fun _ => (rename _ _).bind fun _ => pure _
  · cases r with
    | error segment => exact pure segment
    | ok segment => exact pure segment

lemma commit (ix : Index) : Heedless ix.commit := by
  rw [Index.commit]
  cases ix.manifest with
  | error fault => exact throw _
  | ok manifest => exact (write _ _).bind fun _ => rename _ _

lemma create (dir : Path) (range : TimeRange) (resolution : Resolution) (id : Uid)
    (createdAt : Instant) : Heedless (Index.create dir range resolution id createdAt) := by
  refine bind_get ?_ fun _ _ => rfl
  intro d
  have hmake : Heedless (do
      DiskM.makeDirs dir
      let ix : Index := ⟨dir, id, range, resolution, createdAt, [], 1⟩
      ix.commit
      return ix) := (makeDirs dir).bind fun _ => (commit _).bind fun _ => pure _
  split_ifs
  · exact (throw _).bind fun _ => hmake
  · exact hmake

lemma addChunks (ix : Index) (es : List Entry) : Heedless (ix.addChunks es) := by
  rw [Index.addChunks]
  split_ifs
  · exact pure ix
  · cases Index.check ix.range ix.lastMin? es with
    | error fault => exact throw _
    | ok _ =>
      refine (segmentWrite _ es).bind fun segment => ?_
      exact (tryCatch (commit _) fun e => (remove _).attempt.bind fun _ => throw e).bind
        fun _ => pure _

lemma chunks (ix : Index) : Heedless ix.chunks :=
  (mapM (fun _ => (read _).bind fun _ => ofExcept _) _).bind fun _ => pure _

lemma compact (sources : List Index) (destination : Index) :
    Heedless (SizeTiered.compact sources destination) := by
  rw [SizeTiered.compact]
  split_ifs
  · exact throw _
  · cases sources.find? fun ix => !destination.range.covers ix.range with
    | some ix => exact throw _
    | none => exact (mapM chunks sources).bind fun es => addChunks destination _

end DiskM.Heedless

namespace Engine

variable {d d₀ d₁ d' d'' : Disk} {dir : Path} {p : Place} {e : Engine} {o : Origin} {s : SizeTiered}
  {cs l rest : List (String × Contents)} {planned : List Index} {new : Index}

/-! ### The removal of the sources -/

namespace Overlap

end Overlap

end Engine

end SeriesStore
