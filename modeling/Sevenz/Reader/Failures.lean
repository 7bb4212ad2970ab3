import Sevenz.Reader.SubStreamHook

/-!
# What a walk fails with

The errors that opening a block can end in.
-/

namespace Sevenz

open Lib Result

/-- What the crate itself may answer where a decode stack is built, and the errors the parts
from outside add to that. -/
structure Codecs.Refuses (codecs : Codecs) (p : Error → Prop) : Prop where
  seek : ∀ offset e, codecs.seekError offset = some e → p (.ofIo e)
  decoder : ∀ input stage e, codecs.refuses input stage = some e → p e
  other : ∀ message, p (.other message)
  unsupported : ∀ message, p (.unsupported message)
  cycles : ∀ cap power, p (.limitExceeded .aesCyclesPower cap power)

theorem raises_getUnpackSize {p : Error → Prop} (block : Block) :
    Raises p block.getUnpackSize := by
  have hlast : ∀ n, Raises p (block.lastUnboundSize n) := by
    intro n
    induction n with
    | zero => exact raises_pure _
    | succ n ih =>
        rw [Block.lastUnboundSize]
        split
        · exact raises_index
        · exact ih
  unfold Block.getUnpackSize
  split
  · exact raises_pure _
  · exact hlast _

theorem raises_withCheck {p : Error → Prop} (block : Block) (crc : Option UInt64) :
    Raises p (withCheck block crc) := by
  cases crc with
  | none => exact raises_pure _
  | some crc => exact (raises_getUnpackSize block).bind fun _ _ => raises_pure _

theorem raises_fileBoundaries {p : Error → Prop} (archive : Archive) (b : Nat) :
    Raises p (fileBoundaries archive b) := by
  refine raises_index.bind fun block _ => ?_
  split
  · exact raises_pure _
  · refine raises_index.bind fun start _ => ?_
    dsimp only
    split
    · exact raises_pure _
    · split <;> exact raises_pure _

theorem raises_openBlock (d : BlockDecoder) :
    Raises (fun e => ∃ error,
      buildDecodeStack d.codecs d.limits d.archive d.blockIndex = .error (.error error) ∧
        e = error.inBlock d.blockIndex
          (((blockPackStreams d.archive d.blockIndex).head?.map (·.offset)).getD 0))
      d.openBlock := by
  refine Raises.bind ?_ fun splits _ => Raises.bind ?_ fun stack _ =>
    raises_index.bind fun start _ => raises_index.bind fun block _ =>
      raises_index.bind fun firstSubStream _ => raises_pure _
  · unfold BlockDecoder.checksumSplits
    split
    · exact raises_fileBoundaries _ _
    · exact raises_pure _
  · exact Raises.mapErr (fun error herror => herror) fun error herror => ⟨error, herror, rfl⟩

section

variable {codecs : Codecs} {p : Error → Prop} (h : codecs.Refuses p)
include h

theorem raises_seek (offset : Nat) : Raises p (codecs.seek offset) := by
  unfold Codecs.seek
  split
  · rename_i e he
    exact raises_fail.mpr (h.seek offset e he)
  · exact raises_pure _

theorem raises_addDecoder (input : Decoder) (stage : Stage) :
    Raises p (codecs.addDecoder input stage) := by
  unfold Codecs.addDecoder
  split
  · rename_i e he
    exact raises_fail.mpr (h.decoder input stage e he)
  · exact raises_pure _

theorem raises_checkAesCoders (limits : ArchiveLimits) (coders : List Coder) :
    Raises p (checkAesCoders limits coders) := by
  induction coders with
  | nil => exact raises_pure _
  | cons coder coders ih =>
      refine Raises.bind ?_ fun _ _ => ih
      unfold checkAesCoder
      split
      · exact raises_pure _
      · refine (raises_okOr (h.other _)).bind fun first _ => ?_
        exact raises_rejectIf (h.cycles _ _)

theorem raises_addChain {block : Block} (chain : List (Nat × Coder)) (decoder : Decoder) :
    Raises p (addChain codecs block
      (.unsupported "Multi input/output stream coders are not supported") chain decoder) := by
  induction chain generalizing decoder with
  | nil => exact raises_pure _
  | cons item chain ih =>
      refine (raises_rejectIf (h.unsupported _)).bind fun _ _ => ?_
      exact (raises_addDecoder h decoder _).bind fun decoder' _ => ih decoder'

theorem raises_blockOffset (archive : Archive) (first : Nat) :
    Raises p (blockOffset archive first) := by
  unfold blockOffset
  split
  · exact raises_fail.mpr (h.other _)
  · exact raises_index.bind fun _ _ => raises_okOr (h.other _)

theorem raises_packSources (archive : Archive) (first startPos n i : Nat) :
    Raises p (packSources archive first startPos n i) := by
  induction n generalizing i with
  | zero => exact raises_pure _
  | succ n ih =>
      refine (raises_okOr (h.other _)).bind fun _ _ => raises_index.bind fun _ _ => ?_
      exact (raises_okOr (h.other _)).bind fun _ _ => (ih _).bind fun _ _ => raises_pure _

theorem raises_checkOutIndices (block : Block) (bindPairs : List BindPair) :
    Raises p (checkOutIndices block bindPairs) := by
  induction bindPairs with
  | nil => exact raises_pure _
  | cons bp bindPairs ih => exact (raises_rejectIf (h.other _)).bind fun _ _ => ih

theorem raises_getInStream2 {block : Block} {sources : List Decoder} (depth index : Nat) :
    Raises p (getInStream2 codecs block sources depth index) := by
  induction depth generalizing index with
  | zero => exact raises_fail.mpr (h.other _)
  | succ depth ih =>
      have hinput : ∀ i, Raises p
          (getInStream block sources (getInStream2 codecs block sources depth) i) := by
        intro i
        unfold getInStream
        split
        · exact raises_index
        · exact (raises_okOr (h.other _)).bind fun bp _ => ih bp.outIndex
      refine (raises_okOr (h.other _)).bind fun coder _ => ?_
      refine (raises_okOr (h.other _)).bind fun uncompressedLen _ => ?_
      dsimp only
      split
      · exact (hinput _).bind fun input _ => raises_addDecoder h input _
      · split
        · refine (raises_rejectIf (h.other _)).bind fun _ _ => (hinput _).bind fun _ _ => ?_
          refine (hinput _).bind fun _ _ => (hinput _).bind fun _ _ => ?_
          exact (hinput _).bind fun _ _ => raises_pure _
        · exact raises_fail.mpr (h.unsupported _)

theorem raises_buildDecodeStack (limits : ArchiveLimits) (archive : Archive) (b : Nat) :
    Raises p (buildDecodeStack codecs limits archive b) := by
  refine raises_index.bind fun block _ => (raises_checkAesCoders h limits _).bind fun _ _ => ?_
  split
  · refine raises_index.bind fun block _ => (raises_rejectIf (h.unsupported _)).bind fun _ _ => ?_
    refine raises_index.bind fun first _ => (raises_okOr (h.other _)).bind fun startPos _ => ?_
    refine raises_sliceCheck.bind fun _ _ => (raises_packSources h _ _ _ _ _).bind fun _ _ => ?_
    refine (raises_checkOutIndices h _ _).bind fun _ _ => ?_
    refine (raises_getInStream2 h _ _).bind fun decoder _ => ?_
    refine (raises_withCheck _ _).bind fun check _ => ?_
    exact raises_index.bind fun _ _ => raises_pure _
  · refine raises_index.bind fun first _ => (raises_blockOffset h _ _).bind fun offset _ => ?_
    refine Raises.bind ?_ fun crc _ => (raises_seek h offset).bind fun _ _ => ?_
    · unfold blockCrc
      split
      · exact raises_pure _
      · split
        · exact raises_pure _
        · split
          · refine raises_index.bind fun index _ => ?_
            split
            · exact raises_index.bind fun _ _ => raises_pure _
            · exact raises_pure _
          · exact raises_pure _
    · refine raises_index.bind fun _ _ => (raises_addChain h _ _).bind fun decoder _ => ?_
      exact (raises_withCheck _ _).bind fun check _ => raises_pure _

end

end Sevenz
