import Sevenz.Codec.Bcj2Refinement
import Sevenz.Lib.Verdict

/-!
# The BCJ2 reader reads what the streams decode to

Each quarter of the buffer keeps its bytes in order over the refills, so the reader stands for
one configuration of the whole streams, and each read is a part of what comes of that.
-/

namespace Sevenz

open Lib Bcj2

namespace Bcj2

def faults : List Fault :=
  [invalidData "bcj2 decode error", invalidData "bcj2 decode error:3",
    invalidData "bcj2 decode error:4", invalidData "bcj2 decode error:5"]

theorem base_add_le (s : Bcj2Stream) : s.base + bufSize ≤ 4 * bufSize := by
  cases s <;> decide

theorem quarters_beside {s t : Bcj2Stream} (h : t ≠ s) :
    t.base + bufSize ≤ s.base ∨ s.base + bufSize ≤ t.base := by
  cases s <;> cases t <;> first | exact absurd rfl h | decide

theorem moveDown_eq (bufs : List UInt8) {start base : Nat} (hle : base ≤ start) (count i : Nat)
    (hlength : start + i + count ≤ bufs.length) :
    moveDown start base count i (overwrite bufs base (window bufs start (start + i))) =
      .ok (overwrite bufs base (window bufs start (start + i + count))) := by
  induction count generalizing i with
  | zero => rfl
  | succ count ih =>
      have hmoved : (window bufs start (start + i)).length = i := by
        rw [window_length (by omega), Nat.add_sub_cancel_left]
      have hfits : base + (window bufs start (start + i)).length < bufs.length := by
        rw [hmoved]
        omega
      have hb : bufs[start + i]? = some bufs[start + i] := List.getElem?_eq_getElem (by omega)
      generalize bufs[start + i] = b at hb
      have hread : Result.index (overwrite bufs base (window bufs start (start + i))) (start + i) =
          .ok b := by
        apply Result.index_eq_ok.mpr
        rw [overwrite_getElem? (Nat.le_of_lt hfits), hmoved, if_neg (by omega)]
        exact hb
      have hset :
          Result.setIndex (overwrite bufs base (window bufs start (start + i))) (base + i) b =
            .ok (overwrite bufs base (window bufs start (start + (i + 1)))) := by
        rw [Result.setIndex_of_lt (by rw [overwrite_length (Nat.le_of_lt hfits)]; omega),
          ← Nat.add_assoc, window_concat (Nat.le_add_right _ _) hb, ← overwrite_set hfits, hmoved]
      rw [moveDown, Result.bind_of_ok hread, Result.bind_of_ok hset, ih (i + 1) (by omega)]
      congr 3
      omega

end Bcj2

namespace Bcj2Reader

variable {σ : Type}

/-- The bytes of a stream that are in the buffer: those staged, and the start of an address. -/
def behind (r : Bcj2Reader σ) (s : Bcj2Stream) : List UInt8 :=
  window r.bufs (r.decoder.bufs s) (r.decoder.lims s + r.extraReadSizes s)

def config (r : Bcj2Reader σ) (rest : Bcj2Stream → List UInt8) : Config where
  phase := r.decoder.phase
  core := r.decoder.core
  main := r.behind .main ++ rest .main
  sides := ⟨r.behind .call ++ rest .call, r.behind .jump ++ rest .jump⟩
  rc := r.behind .rc ++ rest .rc

structure Whole (r : Bcj2Reader σ) : Prop where
  length : r.bufs.length = 4 * bufSize
  le : ∀ s, r.decoder.bufs s ≤ r.decoder.lims s
  whole : ∀ s, s.is32bit = true → 4 ∣ r.decoder.lims s - r.decoder.bufs s
  low : ∀ s, s.base ≤ r.decoder.bufs s
  high : ∀ s, r.decoder.lims s + r.extraReadSizes s ≤ s.base + bufSize
  few : ∀ s, r.extraReadSizes s < 4
  none : ∀ s, s.is32bit = false → r.extraReadSizes s = 0
  readRes : ∀ s, r.readRes s = true
  range : r.decoder.phase.Allows r.decoder.range

theorem Whole.fits {r : Bcj2Reader σ} (h : r.Whole) : r.decoder.Fits r.bufs where
  le := h.le
  whole := h.whole
  inside s := by
    have := h.high s
    have := base_add_le s
    rw [h.length]
    omega

theorem Whole.decoded {r : Bcj2Reader σ} (h : r.Whole) {d : Bcj2Decoder}
    (hlims : d.lims = r.decoder.lims) (hforward : ∀ s, r.decoder.bufs s ≤ d.bufs s)
    (hfits : d.Fits r.bufs) (hrange : d.phase.Allows d.range) :
    Whole { r with decoder := d } where
  length := h.length
  le := hfits.le
  whole := hfits.whole
  low s := Nat.le_trans (h.low s) (hforward s)
  high s := by
    dsimp only
    rw [hlims]
    exact h.high s
  few := h.few
  none := h.none
  readRes := h.readRes
  range := hrange

theorem Whole.config_eq {r : Bcj2Reader σ} (h : r.Whole) (rest : Bcj2Stream → List UInt8) :
    r.config rest = r.decoder.config r.bufs (fun s =>
      window r.bufs (r.decoder.lims s) (r.decoder.lims s + r.extraReadSizes s) ++ rest s)
      r.decoder.phase := by
  have hsplit : ∀ s, r.decoder.held r.bufs s ++
      (window r.bufs (r.decoder.lims s) (r.decoder.lims s + r.extraReadSizes s) ++ rest s) =
        r.behind s ++ rest s := by
    intro s
    rw [Bcj2Decoder.held, ← List.append_assoc,
      window_append r.bufs (h.le s) (Nat.le_add_right _ _)]
    rfl
  simp only [config, Bcj2Decoder.config, hsplit]

/-- How the reads of an input end: at its end, or with enough for the decoder to go on. -/
def Enough (s : Bcj2Stream) (total : Nat) (records : List (ReadRecord Fault)) : Prop :=
  ToldEnd records ∨ (0 < total ∧ (s.is32bit = true → 4 ≤ total))

variable {read : ReadFn Fault σ}

theorem fill_eq (hread : Honest read) {s : Bcj2Stream} {rounds total : Nat}
    (hrounds : 4 ≤ total + rounds) (htotal : total < 4) (r : Bcj2Reader σ)
    (hlength : r.bufs.length = 4 * bufSize) :
    ∃ result got records input, r.fill read s rounds total =
        (result, { r with
          inputs := Function.update r.inputs s input
          bufs := overwrite r.bufs (s.base + total) got }) ∧
      Trace read (r.inputs s) records input ∧ (∀ record ∈ records, 0 < record.buf) ∧
      total + got.length ≤ bufSize ∧
      ((result = .ok (total + got.length) ∧ got = delivered records ∧
          Enough s (total + got.length) records) ∨
        ∃ fault, result = .error fault ∧ ∃ record ∈ records, record.result = .error fault) := by
  induction rounds generalizing total r with
  | zero => omega
  | succ rounds ih =>
      have hbuf : 0 < bufSize - total := by
        unfold bufSize
        omega
      have hlong := hread (bufSize - total) (r.inputs s)
      rcases hanswer : read (bufSize - total) (r.inputs s) with ⟨fault | bytes, input⟩
      · refine ⟨.error fault, [], [⟨bufSize - total, .error fault⟩], input, ?_,
          .cons hanswer .nil, by simpa using hbuf, ?_, ?_⟩
        · rw [fill, hanswer, overwrite_nil]
        · rw [List.length_nil]
          omega
        · exact Or.inr ⟨fault, rfl, _, List.mem_singleton_self _, rfl⟩
      · rw [hanswer] at hlong
        have hlong' : total + bytes.length ≤ bufSize := by
          change bytes.length ≤ bufSize - total at hlong
          omega
        have hbase := base_add_le s
        rw [fill, hanswer]
        dsimp only
        by_cases hnil : bytes = []
        · subst hnil
          rw [if_pos rfl]
          exact ⟨_, [], [⟨bufSize - total, .ok []⟩], input, rfl, .cons hanswer .nil,
            by simpa using hbuf, hlong', Or.inl ⟨rfl, rfl, Or.inl ⟨_, List.mem_singleton_self _,
              hbuf, rfl⟩⟩⟩
        · have hpos := List.length_pos_of_ne_nil hnil
          rw [if_neg hnil]
          by_cases hmore : total + bytes.length < 4 ∧ s.is32bit = true
          · rw [if_pos hmore]
            have hlength' : (overwrite r.bufs (s.base + total) bytes).length = 4 * bufSize := by
              rw [overwrite_length (by omega), hlength]
            obtain ⟨result, got, records, input', hfill, htrace, hbufs, hfits, hresult⟩ :=
              @ih (total + bytes.length) (by omega) hmore.1 { r with
                inputs := Function.update r.inputs s input
                bufs := overwrite r.bufs (s.base + total) bytes } hlength'
            dsimp only at hfill htrace
            rw [Function.update_self] at htrace
            rw [Function.update_idem, ← Nat.add_assoc, overwrite_append (by omega)] at hfill
            refine ⟨result, bytes ++ got, ⟨_, .ok bytes⟩ :: records, input', hfill,
              .cons hanswer htrace, List.forall_mem_cons.mpr ⟨hbuf, hbufs⟩, ?_, ?_⟩
            · rw [List.length_append]
              omega
            · rw [List.length_append, ← Nat.add_assoc]
              refine hresult.imp ?_ ?_
              · rintro ⟨hok, hgot, henough⟩
                refine ⟨hok, by rw [delivered_cons_ok, hgot], henough.imp_left ?_⟩
                exact fun ⟨record, hmem, hend⟩ => ⟨record, List.mem_cons_of_mem _ hmem, hend⟩
              · exact fun ⟨fault, herror, record, hmem, hrecord⟩ =>
                  ⟨fault, herror, record, List.mem_cons_of_mem _ hmem, hrecord⟩
          · rw [if_neg hmore]
            refine ⟨_, bytes, [⟨bufSize - total, .ok bytes⟩], input, rfl, .cons hanswer .nil,
              by simpa using hbuf, hlong', Or.inl ⟨rfl, ?_, Or.inr ⟨by omega, ?_⟩⟩⟩
            · rw [delivered_cons_ok, delivered_nil, List.append_nil]
            · intro hs
              exact Nat.le_of_not_lt fun hlt => hmore ⟨hlt, hs⟩

/-- One quarter holds some more bytes behind those it had, and all else is as it was. -/
structure Refilled (r : Bcj2Reader σ) (s : Bcj2Stream) (got : List UInt8) (r' : Bcj2Reader σ) :
    Prop where
  whole : r'.Whole
  decoder : r'.decoder = { r.decoder with bufs := r'.decoder.bufs, lims := r'.decoder.lims }
  size : r'.uncompressedSize = r.uncompressedSize
  behind : ∀ t, r'.behind t = r.behind t ++ if t = s then got else []
  inputs : ∀ t, t ≠ s → r'.inputs t = r.inputs t

theorem Whole.refilled {r : Bcj2Reader σ} (h : r.Whole) {r' : Bcj2Reader σ} {s : Bcj2Stream}
    {piece got : List UInt8} {len extra : Nat} {input : σ}
    (hbufs : r'.bufs = overwrite r.bufs s.base piece)
    (hdecoder : r'.decoder = { r.decoder with
      bufs := Function.update r.decoder.bufs s s.base
      lims := Function.update r.decoder.lims s (s.base + len) })
    (hextra : r'.extraReadSizes = Function.update r.extraReadSizes s extra)
    (hres : r'.readRes = r.readRes) (hsize : r'.uncompressedSize = r.uncompressedSize)
    (hinputs : r'.inputs = Function.update r.inputs s input)
    (hpiece : piece.length ≤ bufSize) (hlen : len + extra ≤ piece.length)
    (hwhole : s.is32bit = true → 4 ∣ len) (hfew : extra < 4)
    (hnone : s.is32bit = false → extra = 0)
    (htake : piece.take (len + extra) = r.behind s ++ got) : Refilled r s got r' := by
  have hbase := base_add_le s
  have hfits : s.base + piece.length ≤ r.bufs.length := by
    rw [h.length]
    omega
  have hself : r'.decoder.bufs s = s.base ∧ r'.decoder.lims s = s.base + len ∧
      r'.extraReadSizes s = extra := by
    rw [hdecoder, hextra]
    exact ⟨Function.update_self _ _ _, Function.update_self _ _ _, Function.update_self _ _ _⟩
  have hother : ∀ t, t ≠ s → r'.decoder.bufs t = r.decoder.bufs t ∧
      r'.decoder.lims t = r.decoder.lims t ∧ r'.extraReadSizes t = r.extraReadSizes t := by
    intro t ht
    rw [hdecoder, hextra]
    exact ⟨Function.update_of_ne ht _ _, Function.update_of_ne ht _ _,
      Function.update_of_ne ht _ _⟩
  obtain ⟨hstart, hlim, hkept⟩ := hself
  refine ⟨⟨?_, fun t => ?_, fun t ht32 => ?_, fun t => ?_, fun t => ?_, fun t => ?_,
    fun t ht32 => ?_, fun t => ?_, ?_⟩, ?_, hsize, fun t => ?_, fun t ht => ?_⟩
  · rw [hbufs, overwrite_length hfits, h.length]
  · by_cases ht : t = s
    · subst ht
      omega
    · rw [(hother t ht).1, (hother t ht).2.1]
      exact h.le t
  · by_cases ht : t = s
    · subst ht
      rw [hstart, hlim, Nat.add_sub_cancel_left]
      exact hwhole ht32
    · rw [(hother t ht).1, (hother t ht).2.1]
      exact h.whole t ht32
  · by_cases ht : t = s
    · subst ht
      exact Nat.le_of_eq hstart.symm
    · rw [(hother t ht).1]
      exact h.low t
  · by_cases ht : t = s
    · subst ht
      omega
    · rw [(hother t ht).2.1, (hother t ht).2.2]
      exact h.high t
  · by_cases ht : t = s
    · subst ht
      omega
    · rw [(hother t ht).2.2]
      exact h.few t
  · by_cases ht : t = s
    · subst ht
      rw [hkept]
      exact hnone ht32
    · rw [(hother t ht).2.2]
      exact h.none t ht32
  · rw [hres]
    exact h.readRes t
  · rw [hdecoder]
    exact h.range
  · rw [hdecoder]
  · by_cases ht : t = s
    · subst ht
      rw [if_pos rfl, ← htake, behind, hbufs, hstart, hlim, hkept, Nat.add_assoc,
        ← window_take (Nat.add_le_add_left hlen _), window_overwrite hfits]
    · obtain ⟨hsame, hsame', hsame''⟩ := hother t ht
      rw [if_neg ht, List.append_nil, behind, behind, hbufs, hsame, hsame', hsame'']
      apply window_overwrite_beside hfits
      have := h.low t
      have := h.high t
      have := quarters_beside ht
      omega
  · rw [hinputs]
    exact Function.update_of_ne ht _ _

inductive RefillEnd (r : Bcj2Reader σ) (s : Bcj2Stream) (records : List (ReadRecord Fault))
    (r' : Bcj2Reader σ) : Except Fault Refill → List UInt8 → Prop where
  | failed {fault : Fault} (hfault : ∃ record ∈ records, record.result = .error fault) :
      RefillEnd r s records r' (.error fault) []
  | filled (hmore : r'.decoder.bufs s ≠ r'.decoder.lims s) :
      RefillEnd r s records r' (.ok .filled) (delivered records)
  | ended (hend : ToldEnd records) (hempty : r.behind s ++ delivered records = []) :
      RefillEnd r s records r' (.ok .ended) (delivered records)
  | short (hend : ToldEnd records) (hs : s.is32bit = true)
      (hpos : r.behind s ++ delivered records ≠ [])
      (hshort : (r.behind s ++ delivered records).length < 4) :
      RefillEnd r s records r' (.ok .short) (delivered records)

theorem refill_eq (hread : Honest read) {r : Bcj2Reader σ} (h : r.Whole) {s : Bcj2Stream}
    (hran : r.decoder.bufs s = r.decoder.lims s) :
    ∃ result got records r', r.refill read s = (result, r') ∧ Refilled r s got r' ∧
      Trace read (r.inputs s) records (r'.inputs s) ∧ (∀ record ∈ records, 0 < record.buf) ∧
      RefillEnd r s records r' result got := by
  have hbase := base_add_le s
  have hhigh := h.high s
  have hlow := h.low s
  have hfew := h.few s
  have hlength := h.length
  have hbehind : r.behind s =
      window r.bufs (r.decoder.bufs s) (r.decoder.bufs s + r.extraReadSizes s) := by
    rw [behind, hran]
  have hkept : (r.behind s).length = r.extraReadSizes s := by
    rw [hbehind, window_length (by omega), Nat.add_sub_cancel_left]
  have hmove : moveDown (r.decoder.bufs s) s.base (r.extraReadSizes s) 0 r.bufs =
      .ok (overwrite r.bufs s.base (r.behind s)) := by
    have := moveDown_eq r.bufs hlow (r.extraReadSizes s) 0 (by omega)
    rwa [Nat.add_zero, window_self, overwrite_nil, ← hbehind] at this
  have hmoved : (overwrite r.bufs s.base (r.behind s)).length = 4 * bufSize := by
    rw [overwrite_length (by omega), hlength]
  rw [refill, hmove]
  dsimp only
  rw [h.readRes s, if_neg nofun]
  obtain ⟨result, got, records, input, hfill, htrace, hbufs, hfits, hresult⟩ :=
    @fill_eq σ read hread s 4 (r.extraReadSizes s) (by omega) hfew { r with
      bufs := overwrite r.bufs s.base (r.behind s)
      decoder := { r.decoder with
        lims := Function.update r.decoder.lims s s.base
        bufs := Function.update r.decoder.bufs s s.base } } hmoved
  have hpiece : overwrite (overwrite r.bufs s.base (r.behind s)) (s.base + r.extraReadSizes s) got =
      overwrite r.bufs s.base (r.behind s ++ got) := by
    rw [← hkept]
    exact overwrite_append (by omega)
  have hall : (r.behind s ++ got).length = r.extraReadSizes s + got.length := by
    rw [List.length_append, hkept]
  have hpiece_le : (r.behind s ++ got).length ≤ bufSize := by omega
  rw [hpiece] at hfill
  rw [hfill]
  obtain ⟨rfl, rfl, henough⟩ | ⟨fault, rfl, hfault⟩ := hresult
  · dsimp only
    have htrace' : Trace read (r.inputs s) records (Function.update r.inputs s input s) := by
      rwa [Function.update_self]
    rw [← hall] at henough ⊢
    by_cases hzero : (r.behind s ++ delivered records).length = 0
    · have hnil : r.behind s ++ delivered records = [] := List.eq_nil_of_length_eq_zero hzero
      have hend : ToldEnd records :=
        henough.resolve_right fun hpos => absurd hzero (Nat.ne_of_gt hpos.1)
      rw [if_pos hzero]
      refine ⟨_, _, records, _, rfl, ?_, htrace', hbufs, .ended hend hnil⟩
      refine @Whole.refilled σ r h _ s (r.behind s ++ delivered records) _ 0 (r.extraReadSizes s)
        input rfl (by rw [Nat.add_zero]) (Function.update_eq_self _ _).symm rfl rfl rfl hpiece_le
        (by omega) (fun _ => Nat.dvd_zero 4) hfew (h.none s) ?_
      rw [hnil, List.take_nil]
    · rw [if_neg hzero]
      by_cases hs : s.is32bit = true
      · by_cases hshort : (r.behind s ++ delivered records).length < 4
        · have hend : ToldEnd records :=
            henough.resolve_right fun hpos => Nat.not_lt.mpr (hpos.2 hs) hshort
          rw [if_pos hs, if_pos hs, if_pos ⟨hs, hshort⟩]
          refine ⟨_, _, records, _, rfl, ?_, htrace', hbufs,
            .short hend hs (fun hnil => hzero (congrArg List.length hnil)) hshort⟩
          refine @Whole.refilled σ r h _ s (r.behind s ++ delivered records) _ 0
            ((r.behind s ++ delivered records).length % 4) input rfl (by rw [Nat.add_zero]) rfl rfl
            rfl rfl hpiece_le (by omega) (fun _ => Nat.dvd_zero 4) (by omega)
            (fun hnone => absurd hs (by simp [hnone])) ?_
          exact List.take_of_length_le (by omega)
        · rw [if_pos hs, if_pos hs, if_neg fun hboth => hshort hboth.2]
          refine ⟨_, _, records, _, rfl, ?_, htrace', hbufs, .filled ?_⟩
          · refine @Whole.refilled σ r h _ s (r.behind s ++ delivered records) _
              ((r.behind s ++ delivered records).length -
                (r.behind s ++ delivered records).length % 4)
              ((r.behind s ++ delivered records).length % 4) input rfl
              (by rw [Function.update_idem, Nat.add_comm s.base]) rfl rfl rfl rfl hpiece_le
              (by omega) (fun _ => Nat.dvd_sub_mod _) (by omega)
              (fun hnone => absurd hs (by simp [hnone])) ?_
            exact List.take_of_length_le (by omega)
          · dsimp only
            rw [Function.update_self, Function.update_self]
            omega
      · have hs' : s.is32bit = false := Bool.eq_false_iff.mpr hs
        rw [if_neg hs, if_neg hs, if_neg fun hboth => hs hboth.1, Nat.sub_zero]
        refine ⟨_, _, records, _, rfl, ?_, htrace', hbufs, .filled ?_⟩
        · refine @Whole.refilled σ r h _ s (r.behind s ++ delivered records) _
            (r.behind s ++ delivered records).length 0 input rfl
            (by rw [Function.update_idem, Nat.add_comm s.base])
            (Function.update_eq_self_iff.mpr (h.none s hs').symm).symm rfl rfl rfl hpiece_le
            (Nat.le_refl _) (fun hnone => absurd hnone hs) (by decide) (fun _ => rfl) ?_
          exact List.take_of_length_le (Nat.le_refl _)
        · dsimp only
          rw [Function.update_self, Function.update_self]
          omega
  · refine ⟨_, [], records, _, rfl, ?_, ?_, hbufs, .failed hfault⟩
    · refine @Whole.refilled σ r h _ s (r.behind s ++ got) [] 0 (r.extraReadSizes s) input rfl
        (by rw [Nat.add_zero]) (Function.update_eq_self _ _).symm rfl rfl rfl hpiece_le (by omega)
        (fun _ => Nat.dvd_zero 4) hfew (h.none s) ?_
      rw [Nat.zero_add, List.take_left' hkept, List.append_nil]
    · dsimp only
      rw [Function.update_self]
      exact htrace

theorem Refilled.phase_eq {r r' : Bcj2Reader σ} {s : Bcj2Stream} {got : List UInt8}
    (h : Refilled r s got r') : r'.decoder.phase = r.decoder.phase :=
  (congrArg Bcj2Decoder.phase h.decoder).trans rfl

theorem Refilled.core_eq {r r' : Bcj2Reader σ} {s : Bcj2Stream} {got : List UInt8}
    (h : Refilled r s got r') : r'.decoder.core = r.decoder.core :=
  (congrArg Bcj2Decoder.core h.decoder).trans rfl

theorem Refilled.dest_eq {r r' : Bcj2Reader σ} {s : Bcj2Stream} {got : List UInt8}
    (h : Refilled r s got r') : r'.decoder.dest = r.decoder.dest :=
  (congrArg Bcj2Decoder.dest h.decoder).trans rfl

theorem Refilled.waits_eq {r r' : Bcj2Reader σ} {s : Bcj2Stream} {got : List UInt8}
    (h : Refilled r s got r') (phase : Phase) : r'.decoder.waits phase = r.decoder.waits phase :=
  (congrArg (Bcj2Decoder.waits phase) h.decoder).trans (by cases phase <;> rfl)

theorem Refilled.cost_eq {r r' : Bcj2Reader σ} {s : Bcj2Stream} {got : List UInt8}
    (h : Refilled r s got r') (destLim : Nat) (phase : Phase) :
    r'.decoder.cost destLim phase = r.decoder.cost destLim phase :=
  (congrArg (Bcj2Decoder.cost destLim phase) h.decoder).trans rfl

theorem Refilled.state_eq {r r' : Bcj2Reader σ} {s : Bcj2Stream} {got : List UInt8}
    (h : Refilled r s got r') : r'.decoder.state = r.decoder.state :=
  (congrArg Bcj2Decoder.state h.decoder).trans rfl

theorem Refilled.config {r r' : Bcj2Reader σ} {s : Bcj2Stream} {got : List UInt8}
    (h : Refilled r s got r') (rest : Bcj2Stream → List UInt8) :
    r'.config rest = r.config fun t => (if t = s then got else []) ++ rest t := by
  have hbehind : ∀ t, r'.behind t ++ rest t =
      r.behind t ++ ((if t = s then got else []) ++ rest t) := by
    intro t
    rw [h.behind, List.append_assoc]
  simp only [Bcj2Reader.config, h.phase_eq, h.core_eq, hbehind]

/-- The reader is whole, and where `ip` is checked it holds all bytes that are still to come. -/
structure Sound (checks : Bool) (r : Bcj2Reader σ) : Prop where
  whole : r.Whole
  ip : r.decoder.IpRoom checks r.uncompressedSize r.decoder.phase

structure Ran (read : ReadFn Fault σ) (r : Bcj2Reader σ)
    (records : Bcj2Stream → List (ReadRecord Fault)) (out : List UInt8) (r' : Bcj2Reader σ) :
    Prop where
  traces : ∀ t, Trace read (r.inputs t) (records t) (r'.inputs t)
  roomy : ∀ t, ∀ record ∈ records t, 0 < record.buf
  dest : r'.decoder.dest = r.decoder.dest ++ out
  size : out.length + r'.uncompressedSize = r.uncompressedSize
  emits : ∀ rest, (r.config fun t => delivered (records t) ++ rest t).Emits out (r'.config rest)

section

variable {checks : Bool} {destLim : Nat} {r r' r'' : Bcj2Reader σ}
  {records records' : Bcj2Stream → List (ReadRecord Fault)} {out out' : List UInt8}

theorem Ran.trans (h : Ran read r records out r') (h' : Ran read r' records' out' r'') :
    Ran read r (fun t => records t ++ records' t) (out ++ out') r'' where
  traces t := (h.traces t).append (h'.traces t)
  roomy t record hmem := (List.mem_append.mp hmem).elim (h.roomy t record) (h'.roomy t record)
  dest := by rw [h'.dest, h.dest, List.append_assoc]
  size := by
    have := h.size
    have := h'.size
    rw [List.length_append]
    omega
  emits rest := by
    simp only [delivered_append, List.append_assoc]
    exact (h.emits _).trans (h'.emits rest)

theorem Whole.ran_decoded (h : r.Whole) {d : Bcj2Decoder}
    (hwent : Bcj2Decoder.Went checks r.bufs destLim r.decoder.phase r.decoder out d.phase d)
    {size : Nat} (hsize : out.length + size = r.uncompressedSize) :
    Ran read r (fun _ => []) out { r with decoder := d, uncompressedSize := size } ∧
      Whole { r with decoder := d, uncompressedSize := size } := by
  have hwhole : Whole { r with decoder := d } :=
    h.decoded hwent.lims hwent.forward hwent.ready.fits hwent.ready.range
  have hwhole' : Whole { r with decoder := d, uncompressedSize := size } :=
    ⟨hwhole.length, hwhole.le, hwhole.whole, hwhole.low, hwhole.high, hwhole.few, hwhole.none,
      hwhole.readRes, hwhole.range⟩
  refine ⟨⟨fun _ => .nil, fun _ => nofun, hwent.dest, hsize, fun rest => ?_⟩, hwhole'⟩
  rw [h.config_eq, hwhole'.config_eq]
  dsimp only
  rw [hwent.lims]
  exact hwent.emits _

theorem Refilled.ran {s : Bcj2Stream} {reads : List (ReadRecord Fault)}
    (h : Refilled r s (delivered reads) r')
    (htrace : Trace read (r.inputs s) reads (r'.inputs s))
    (hroomy : ∀ record ∈ reads, 0 < record.buf) :
    Ran read r (fun t => if t = s then reads else []) [] r' where
  traces t := by
    by_cases ht : t = s
    · subst ht
      rw [if_pos rfl]
      exact htrace
    · rw [if_neg ht, h.inputs t ht]
      exact .nil
  roomy t := by
    by_cases ht : t = s
    · rw [if_pos ht]
      exact hroomy
    · rw [if_neg ht]
      exact nofun
  dest := by rw [h.dest_eq, List.append_nil]
  size := by rw [List.length_nil, Nat.zero_add, h.size]
  emits rest := by
    rw [h.config]
    have hsame : ∀ t, delivered (if t = s then reads else []) =
        if t = s then delivered reads else [] := by
      intro t
      split <;> rfl
    simp only [hsame]
    exact .refl _

theorem Sound.refilled {s : Bcj2Stream} {got : List UInt8} (h : r.Sound checks)
    (hrefilled : Refilled r s got r') : r'.Sound checks where
  whole := hrefilled.whole
  ip := by
    rw [hrefilled.size, hrefilled.phase_eq]
    have hip : r'.decoder.ip = r.decoder.ip :=
      (congrArg Bcj2Decoder.ip hrefilled.decoder).trans rfl
    intro hchecks
    rw [hip]
    exact h.ip hchecks

end

/-- The loop is done: the caller's buffer is full, or a stream has come to its end. -/
inductive Halted (destLim : Nat) (ends : Bcj2Stream → Prop) (r : Bcj2Reader σ) : Prop where
  | full (hstate : r.decoder.state = .orig) (hwide : ¬ r.decoder.range < topValue)
      (hfull : r.decoder.dest.length = destLim)
  | within {k : Fin 4} (hstate : r.decoder.state = .orig03 k)
      (hfull : r.decoder.dest.length = destLim) (hphase : r.decoder.phase ≠ .starting)
  | ended (hstate : r.decoder.state = .stream (r.decoder.waits r.decoder.phase))
      (hempty : r.behind (r.decoder.waits r.decoder.phase) = [])
      (hgood : r.decoder.phase = .starting →
        r.decoder.range ≠ 5 ∧ ¬ (r.decoder.range = 1 ∧ r.decoder.code ≠ 0))
      (hend : ends (r.decoder.waits r.decoder.phase))

structure Torn (ends : Bcj2Stream → Prop) (r : Bcj2Reader σ) : Prop where
  phase : r.decoder.phase = .address
  pos : r.behind (addressStream (getElem r.decoder.temp 3 last_lt)) ≠ []
  short : (r.behind (addressStream (getElem r.decoder.temp 3 last_lt))).length < 4
  ends : ends (addressStream (getElem r.decoder.temp 3 last_lt))

section

variable {destLim : Nat} {ends : Bcj2Stream → Prop} {r : Bcj2Reader σ}
  {rest : Bcj2Stream → List UInt8}

theorem Halted.imp {ends' : Bcj2Stream → Prop} (h : r.Halted destLim ends)
    (hends : ∀ t, ends t → ends' t) : r.Halted destLim ends' := by
  cases h with
  | full hstate hwide hfull => exact .full hstate hwide hfull
  | within hstate hfull hphase => exact .within hstate hfull hphase
  | ended hstate hempty hgood hend => exact .ended hstate hempty hgood (hends _ hend)

theorem Torn.imp {ends' : Bcj2Stream → Prop} (h : r.Torn ends)
    (hends : ∀ t, ends t → ends' t) : r.Torn ends' :=
  ⟨h.phase, h.pos, h.short, hends _ h.ends⟩

theorem config_sides_get (r : Bcj2Reader σ) (rest : Bcj2Stream → List UInt8) (b : UInt8) :
    (r.config rest).sides.get b = r.behind (addressStream b) ++ rest (addressStream b) := by
  unfold Sides.get addressStream
  split <;> rfl

theorem Torn.left (h : r.Torn ends) (hrest : ∀ t, ends t → rest t = []) (wanted : Nat) :
    (r.config rest).left wanted = if wanted = 0 then some [] else none := by
  have hget := config_sides_get r rest r.decoder.temp[3]
  rw [hrest _ h.ends, List.append_nil] at hget
  have hconfig : r.config rest = ⟨.address, r.decoder.core, (r.config rest).main,
      (r.config rest).sides, (r.config rest).rc⟩ := by
    rw [← h.phase]
    rfl
  rw [hconfig]
  apply Config.left_address_torn
  · exact hget ▸ h.pos
  · exact hget ▸ h.short

theorem left_ended (hstate : r.decoder.state = .stream (r.decoder.waits r.decoder.phase))
    (hempty : r.behind (r.decoder.waits r.decoder.phase) = [])
    (hgood : r.decoder.phase = .starting →
      r.decoder.range ≠ 5 ∧ ¬ (r.decoder.range = 1 ∧ r.decoder.code ≠ 0))
    (hrest : rest (r.decoder.waits r.decoder.phase) = []) (wanted : Nat) :
    (r.config rest).left wanted =
      if wanted = 0 then
        if r.decoder.state = .stream .main then r.decoder.core.verdict else none
      else some [] := by
  rw [hstate]
  cases hphase : r.decoder.phase with
  | starting =>
      rw [hphase] at hempty hrest
      have hrc : (r.config rest).rc = [] := List.append_eq_nil_iff.mpr ⟨hempty, hrest⟩
      have hconfig : r.config rest = ⟨.starting, r.decoder.core, (r.config rest).main,
          (r.config rest).sides, []⟩ := by
        rw [← hphase, ← hrc]
        rfl
      have hmain : Bcj2State.stream (r.decoder.waits .starting) ≠ .stream .main := nofun
      rw [hconfig, Config.left_starting_nil (hgood hphase).1 (hgood hphase).2, if_neg hmain]
      rfl
  | address =>
      rw [hphase] at hempty hrest
      have hget := config_sides_get r rest r.decoder.temp[3]
      have hnil : (r.config rest).sides.get r.decoder.temp[3] = [] :=
        hget.trans (List.append_eq_nil_iff.mpr ⟨hempty, hrest⟩)
      have hconfig : r.config rest = ⟨.address, r.decoder.core, (r.config rest).main,
          (r.config rest).sides, (r.config rest).rc⟩ := by
        rw [← hphase]
        rfl
      have hmain : Bcj2State.stream (r.decoder.waits .address) ≠ .stream .main := by
        change Bcj2State.stream (addressStream r.decoder.temp[3]) ≠ .stream .main
        unfold addressStream
        split <;> decide
      rw [hconfig, Config.left_address_nil hnil, if_neg hmain]
      rfl
  | top =>
      have hconfig : r.config rest = ⟨.top, r.decoder.core, (r.config rest).main,
          (r.config rest).sides, (r.config rest).rc⟩ := by
        rw [← hphase]
        rfl
      rw [hphase] at hempty hrest
      by_cases hsmall : r.decoder.range < topValue
      · have hwaits : r.decoder.waits .top = .rc := if_pos hsmall
        rw [hwaits] at hempty hrest ⊢
        have hrc : (r.config rest).rc = [] := List.append_eq_nil_iff.mpr ⟨hempty, hrest⟩
        have hmain : Bcj2State.stream .rc ≠ .stream .main := nofun
        rw [hconfig, hrc, Config.left_top, top_starved hsmall, if_neg hmain]
        rfl
      · have hwaits : r.decoder.waits .top = .main := if_neg hsmall
        rw [hwaits] at hempty hrest ⊢
        have hmain : (r.config rest).main = [] := List.append_eq_nil_iff.mpr ⟨hempty, hrest⟩
        rw [hconfig, hmain, Config.left_top, top_nil hsmall, if_pos rfl]
  | writing bytes =>
      unfold Bcj2Decoder.phase at hphase
      rw [hstate] at hphase
      split at hphase
      · cases hphase
      · dsimp only at hphase
        split at hphase
        · cases hphase
        · cases hphase

theorem Halted.left_zero (hwhole : r.Whole) (h : r.Halted destLim ends)
    (hrest : ∀ t, ends t → rest t = []) (hsize : r.uncompressedSize = 0) :
    (r.config rest).left 0 = if r.endFault = none then some [] else none := by
  unfold endFault
  rw [if_neg (not_not.mpr hsize)]
  cases h with
  | full hstate hwide hfull =>
      have hrange : 2 ^ 16 ≤ r.decoder.range.toNat := by
        rw [UInt32.lt_iff_toNat_lt, topValue_toNat] at hwide
        omega
      have hphase : r.decoder.phase = .top := by
        apply Bcj2Decoder.phase_of_isTop hrange
        rw [hstate]
        rfl
      have hconfig : r.config rest = ⟨.top, r.decoder.core, (r.config rest).main,
          (r.config rest).sides, (r.config rest).rc⟩ := by
        rw [← hphase]
        rfl
      rw [hconfig, Config.left_top, top_zero hwide, Core.verdict]
      by_cases hcode : r.decoder.code = 0
      · simp [Bcj2Decoder.core, hcode, hstate]
      · simp [Bcj2Decoder.core, hcode]
  | within hstate hfull hphase =>
      rename_i k
      have hphase' := Bcj2Decoder.phase_of_orig03 (hwhole.range.low hphase) hstate
      have hconfig : r.config rest = ⟨.writing (r.decoder.temp.toList.drop k), r.decoder.core,
          (r.config rest).main, (r.config rest).sides, (r.config rest).rc⟩ := by
        rw [← hphase']
        rfl
      have hne : r.decoder.temp.toList.drop k ≠ [] := by
        rw [Bcj2Decoder.drop_temp]
        exact List.cons_ne_nil _ _
      rw [hconfig, Config.left_writing_zero hne]
      by_cases hcode : r.decoder.code = 0
      · simp [hcode, hstate]
      · simp [hcode]
  | ended hstate hempty hgood hend =>
      rw [left_ended hstate hempty hgood (hrest _ hend), if_pos rfl, Core.verdict]
      by_cases hmain : r.decoder.state = .stream .main
      · by_cases hcode : r.decoder.code = 0
        · simp [Bcj2Decoder.core, hcode, hmain]
        · simp [Bcj2Decoder.core, hcode, hmain]
      · have horig : r.decoder.state ≠ .orig := by
          rw [hstate]
          intro heq
          cases heq
        by_cases hcode : r.decoder.code = 0
        · simp [hcode, hmain, horig]
        · simp [hcode, hmain]

theorem Halted.left_of_room (h : r.Halted destLim ends) (hrest : ∀ t, ends t → rest t = [])
    (hroom : r.decoder.dest.length < destLim) (hsize : r.uncompressedSize ≠ 0) :
    (r.config rest).left r.uncompressedSize = some [] := by
  cases h with
  | full hstate hwide hfull => exact absurd hfull (Nat.ne_of_lt hroom)
  | within hstate hfull hphase => exact absurd hfull (Nat.ne_of_lt hroom)
  | ended hstate hempty hgood hend =>
      rw [left_ended hstate hempty hgood (hrest _ hend), if_neg hsize]

end

/-- How the loop ends: with an error of an input, with what no bytes behind those read can make
whole, where it is done, or within an address. -/
inductive LoopEnd (read : ReadFn Fault σ) (destLim : Nat) (r : Bcj2Reader σ) :
    Except Fault Bool → Bcj2Reader σ → Prop where
  | passed {fault : Fault} {r' : Bcj2Reader σ} {s : Bcj2Stream}
      {reads : List (ReadRecord Fault)} {input : σ} (htrace : Trace read (r.inputs s) reads input)
      (hroomy : ∀ record ∈ reads, 0 < record.buf)
      (hfault : ∃ record ∈ reads, record.result = .error fault) :
      LoopEnd read destLim r (.error fault) r'
  | invalid {records : Bcj2Stream → List (ReadRecord Fault)} {out : List UInt8}
      {r' : Bcj2Reader σ} {fault : Fault} (hfault : fault ∈ faults)
      (hran : Ran read r records out r')
      (hnone : ∀ rest : Bcj2Stream → List UInt8, (∀ t, ToldEnd (records t) → rest t = []) →
        (r.config fun t => delivered (records t) ++ rest t).left r.uncompressedSize = none) :
      LoopEnd read destLim r (.error fault) r'
  | halted {records : Bcj2Stream → List (ReadRecord Fault)} {out : List UInt8}
      {r' : Bcj2Reader σ} (hran : Ran read r records out r')
      (hhalted : r'.Halted destLim fun t => ToldEnd (records t)) :
      LoopEnd read destLim r (.ok true) r'
  | short {records : Bcj2Stream → List (ReadRecord Fault)} {out : List UInt8}
      {r' : Bcj2Reader σ} (hran : Ran read r records out r') (hdest : r'.decoder.dest ≠ [])
      (htorn : r'.Torn fun t => ToldEnd (records t)) :
      LoopEnd read destLim r (.ok false) r'

section

variable {checks : Bool} {destLim : Nat} {r r' : Bcj2Reader σ}
  {records : Bcj2Stream → List (ReadRecord Fault)} {out : List UInt8}

theorem LoopEnd.after {r₁ : Bcj2Reader σ} {result : Except Fault Bool}
    (hran : Ran read r records out r₁) (h : LoopEnd read destLim r₁ result r') :
    LoopEnd read destLim r result r' := by
  cases h with
  | passed htrace hroomy hfault =>
      rename_i s reads input
      refine .passed ((hran.traces s).append htrace) (fun record hmem => ?_) ?_
      · exact (List.mem_append.mp hmem).elim (hran.roomy s record) (hroomy record)
      · exact hfault.imp fun record hrecord => hrecord.imp_left (List.mem_append_right _)
  | invalid hfault hran' hnone =>
      refine .invalid hfault (hran.trans hran') fun rest hrest => ?_
      have hsize := hran.size
      simp only [delivered_append, List.append_assoc]
      apply (hran.emits _).left_eq_none (by omega)
      rw [← hsize, Nat.add_sub_cancel_left]
      exact hnone rest fun t hend => hrest t (hend.append_right _)
  | halted hran' hhalted =>
      exact .halted (hran.trans hran') (hhalted.imp fun t hend => hend.append_right _)
  | short hran' hdest htorn =>
      exact .short (hran.trans hran') hdest (htorn.imp fun t hend => hend.append_right _)

theorem Sound.ran_decoded (h : r.Sound checks) {d : Bcj2Decoder}
    (hwent : Bcj2Decoder.Went checks r.bufs destLim r.decoder.phase r.decoder out d.phase d)
    (hsize : out.length ≤ r.uncompressedSize) :
    Ran read r (fun _ => []) out
        { r with decoder := d, uncompressedSize := r.uncompressedSize - out.length } ∧
      Sound checks { r with
        decoder := d
        uncompressedSize := r.uncompressedSize - out.length } := by
  obtain ⟨hran, hwhole⟩ := @Whole.ran_decoded σ read checks destLim r out h.whole d hwent _
    (Nat.add_sub_cancel' hsize)
  refine ⟨hran, hwhole, ?_⟩
  apply hwent.ip
  rw [Nat.add_sub_cancel' hsize]
  exact h.ip

inductive Resupplied (read : ReadFn Fault σ) (destLim : Nat) (r : Bcj2Reader σ) :
    Except Fault Refill → Bcj2Reader σ → Prop where
  | passed {fault : Fault} {r' : Bcj2Reader σ} {s : Bcj2Stream}
      {reads : List (ReadRecord Fault)} {input : σ} (htrace : Trace read (r.inputs s) reads input)
      (hroomy : ∀ record ∈ reads, 0 < record.buf)
      (hfault : ∃ record ∈ reads, record.result = .error fault) :
      Resupplied read destLim r (.error fault) r'
  | filled {records : Bcj2Stream → List (ReadRecord Fault)} {r' : Bcj2Reader σ}
      (hran : Ran read r records [] r')
      (hmore : r'.decoder.bufs (r'.decoder.waits r'.decoder.phase) ≠
        r'.decoder.lims (r'.decoder.waits r'.decoder.phase)) :
      Resupplied read destLim r (.ok .filled) r'
  | ended {records : Bcj2Stream → List (ReadRecord Fault)} {r' : Bcj2Reader σ}
      (hran : Ran read r records [] r') (hhalted : r'.Halted destLim fun t => ToldEnd (records t)) :
      Resupplied read destLim r (.ok .ended) r'
  | short {records : Bcj2Stream → List (ReadRecord Fault)} {r' : Bcj2Reader σ}
      (hran : Ran read r records [] r') (htorn : r'.Torn fun t => ToldEnd (records t)) :
      Resupplied read destLim r (.ok .short) r'

theorem Sound.resupplied (hread : Honest read) (h : r.Sound checks)
    (hstate : r.decoder.state = .stream (r.decoder.waits r.decoder.phase))
    (hempty : r.decoder.bufs (r.decoder.waits r.decoder.phase) =
      r.decoder.lims (r.decoder.waits r.decoder.phase))
    (hgood : r.decoder.phase = .starting →
      r.decoder.range ≠ 5 ∧ ¬ (r.decoder.range = 1 ∧ r.decoder.code ≠ 0)) :
    ∃ result got r', r.refill read (r.decoder.waits r.decoder.phase) = (result, r') ∧
      Refilled r (r.decoder.waits r.decoder.phase) got r' ∧
      Resupplied read destLim r result r' := by
  obtain ⟨result, got, reads, r', hrefill, hrefilled, htrace, hroomy, hend⟩ :=
    refill_eq hread h.whole hempty
  have hwaits : r'.decoder.waits r'.decoder.phase = r.decoder.waits r.decoder.phase := by
    rw [hrefilled.phase_eq, hrefilled.waits_eq]
  have hstate' : r'.decoder.state = .stream (r'.decoder.waits r'.decoder.phase) := by
    rw [hwaits, ← hstate, hrefilled.state_eq]
  have hbehind := hrefilled.behind (r.decoder.waits r.decoder.phase)
  rw [if_pos rfl] at hbehind
  refine ⟨result, got, r', hrefill, hrefilled, ?_⟩
  cases hend with
  | failed hfault => exact .passed htrace hroomy hfault
  | filled hmore =>
      refine .filled (hrefilled.ran htrace hroomy) ?_
      rw [hwaits]
      exact hmore
  | ended hend hnil =>
      refine .ended (hrefilled.ran htrace hroomy) (.ended hstate' ?_ ?_ ?_)
      · rw [hwaits, hbehind, hnil]
      · have hrange : r'.decoder.range = r.decoder.range :=
          congrArg Core.range hrefilled.core_eq
        have hcode : r'.decoder.code = r.decoder.code := congrArg Core.code hrefilled.core_eq
        rw [hrefilled.phase_eq, hrange, hcode]
        exact hgood
      · rw [hwaits, if_pos rfl]
        exact hend
  | short hend hs hne hshort =>
      have haddress : r'.decoder.phase = .address := by
        rw [hrefilled.phase_eq]
        exact Bcj2Decoder.phase_of_waits hs
      have hstream : addressStream r'.decoder.temp[3] = r.decoder.waits r.decoder.phase := by
        rw [← hwaits, haddress]
        rfl
      refine .short (hrefilled.ran htrace hroomy) ⟨haddress, ?_, ?_, ?_⟩
      · rw [hstream, hbehind]
        exact hne
      · rw [hstream, hbehind]
        exact hshort
      · rw [hstream, if_pos rfl]
        exact hend

theorem readLoop_eq (hread : Honest read) {rounds : Nat} (h : r.Sound checks)
    (hroom : r.decoder.dest.length ≤ destLim)
    (hwanted : destLim ≤ r.decoder.dest.length + r.uncompressedSize)
    (hpos : 0 < destLim)
    (hrounds : r.decoder.cost destLim r.decoder.phase < rounds ∨
      (r.decoder.bufs (r.decoder.waits r.decoder.phase) ≠
          r.decoder.lims (r.decoder.waits r.decoder.phase) ∧
        r.decoder.cost destLim r.decoder.phase ≤ rounds)) :
    ∃ result r', readLoop checks read destLim rounds r.decoder.dest.length r = (result, r') ∧
      r'.Sound checks ∧ r'.uncompressedSize ≤ r.uncompressedSize ∧
      r'.decoder.dest.length ≤ destLim ∧ LoopEnd read destLim r result r' := by
  induction rounds generalizing r with
  | zero =>
      have := @Bcj2Decoder.cost_pos destLim _ _ h.whole.range
      omega
  | succ rounds ih =>
      have hready : r.decoder.Ready r.bufs destLim r.decoder.phase :=
        ⟨h.whole.fits, h.whole.range, hroom⟩
      rw [readLoop]
      obtain ⟨d, hdecode, hwent, hrefused⟩ | ⟨out, d, hdecode, hreturned⟩ :=
        hready.decode h.ip hwanted
      · rw [hdecode]
        obtain ⟨hran, hsound⟩ := @Sound.ran_decoded σ read checks destLim r [] h d hwent
          (Nat.zero_le _)
        refine ⟨_, _, rfl, hsound, Nat.le_refl _, hwent.ready.room,
          .invalid (by decide) hran ?_⟩
        intro rest _
        rw [show (fun t => delivered ([] : List (ReadRecord Fault)) ++ rest t) = rest from rfl,
          h.whole.config_eq]
        exact hrefused _ _
      · have hwent := hreturned.went
        have hlength : d.dest.length = r.decoder.dest.length + out.length := by
          rw [hwent.dest, List.length_append]
        have hroom' := hwent.ready.room
        obtain ⟨hran, hsound⟩ := @Sound.ran_decoded σ read checks destLim r out h d hwent (by omega)
        have hsub : checkedSub d.dest.length r.decoder.dest.length = .ok out.length := by
          rw [checkedSub_of_le (by omega), hlength, Nat.add_sub_cancel_left]
        rw [hdecode]
        dsimp only
        rw [Result.bind_of_ok hsub, checkedSub_of_le (by omega)]
        cases hreturned.stopped with
        | full hstate hwide hfull =>
            rw [hstate]
            exact ⟨_, _, rfl, hsound, Nat.sub_le _ _, hroom',
              .halted hran (.full hstate hwide hfull)⟩
        | within hstate hfull hphase =>
            rw [hstate]
            exact ⟨_, _, rfl, hsound, Nat.sub_le _ _, hroom',
              .halted hran (.within hstate hfull hphase)⟩
        | ranOut hstate hempty hgood =>
            rw [hstate]
            dsimp only
            obtain ⟨result, got, r₂, hrefill, hrefilled, hresupplied⟩ :=
              @Sound.resupplied σ read checks destLim _ hread hsound hstate hempty hgood
            have hsound₂ := hsound.refilled hrefilled
            have hsize₂ : r₂.uncompressedSize = r.uncompressedSize - out.length := hrefilled.size
            have hdest₂ : r₂.decoder.dest = d.dest := hrefilled.dest_eq
            have hle₂ : r₂.uncompressedSize ≤ r.uncompressedSize := by omega
            have hroom₂ : r₂.decoder.dest.length ≤ destLim := by
              rw [hdest₂]
              exact hroom'
            rw [hrefill]
            cases hresupplied with
            | passed htrace hroomy hfault =>
                exact ⟨_, _, rfl, hsound₂, hle₂, hroom₂,
                  LoopEnd.after hran (.passed htrace hroomy hfault)⟩
            | ended hran₂ hhalted =>
                exact ⟨_, _, rfl, hsound₂, hle₂, hroom₂,
                  LoopEnd.after hran (.halted hran₂ hhalted)⟩
            | filled hran₂ hmore =>
                have hcost₂ : r₂.decoder.cost destLim r₂.decoder.phase ≤ rounds := by
                  rw [hrefilled.phase_eq, hrefilled.cost_eq]
                  have hle := hwent.cost
                  change d.cost destLim d.phase ≤ rounds
                  obtain hless | ⟨hfed, hless⟩ := hrounds
                  · omega
                  · have := hreturned.cost hfed ⟨_, hstate⟩
                    omega
                have hwanted₂ : destLim ≤ r₂.decoder.dest.length + r₂.uncompressedSize := by
                  rw [hdest₂, hsize₂]
                  omega
                obtain ⟨result, r', hloop, hsound', hle', hroom', hend⟩ :=
                  ih hsound₂ hroom₂ hwanted₂ (Or.inr ⟨hmore, hcost₂⟩)
                exact ⟨result, r', hloop, hsound', Nat.le_trans hle' hle₂, hroom',
                  (hend.after hran₂).after hran⟩
            | short hran₂ htorn =>
                dsimp only
                by_cases hnone : r₂.decoder.dest = []
                · have hempty₂ : r₂.decoder.dest.length = 0 := by rw [hnone, List.length_nil]
                  rw [if_neg (not_not.mpr hnone)]
                  refine ⟨_, _, rfl, hsound₂, hle₂, hroom₂,
                    LoopEnd.after hran (.invalid (by decide) hran₂ fun rest hrest => ?_)⟩
                  apply (hran₂.emits rest).left_eq_none (Nat.zero_le _)
                  rw [htorn.left hrest]
                  apply if_neg
                  rw [hdest₂] at hempty₂
                  change r.uncompressedSize - out.length - 0 ≠ 0
                  omega
                · rw [if_pos hnone]
                  exact ⟨_, _, rfl, hsound₂, hle₂, hroom₂,
                    LoopEnd.after hran (.short hran₂ hnone htorn)⟩

end

/-- How a read ends: with an error of an input, with what cannot be made whole, or with some
bytes, after which the rest comes. -/
inductive ReadEnd (read : ReadFn Fault σ) (r : Bcj2Reader σ) :
    ReadResult Fault → Bcj2Reader σ → Prop where
  | passed {fault : Fault} {r' : Bcj2Reader σ} {s : Bcj2Stream}
      {reads : List (ReadRecord Fault)} {input : σ} (htrace : Trace read (r.inputs s) reads input)
      (hroomy : ∀ record ∈ reads, 0 < record.buf)
      (hfault : ∃ record ∈ reads, record.result = .error fault) :
      ReadEnd read r (.error fault) r'
  | invalid {records : Bcj2Stream → List (ReadRecord Fault)} {out : List UInt8}
      {r' : Bcj2Reader σ} {fault : Fault} (hfault : fault ∈ faults)
      (hran : Ran read r records out r')
      (hnone : ∀ rest : Bcj2Stream → List UInt8, (∀ t, ToldEnd (records t) → rest t = []) →
        (r.config fun t => delivered (records t) ++ rest t).left r.uncompressedSize = none) :
      ReadEnd read r (.error fault) r'
  | gave {records : Bcj2Stream → List (ReadRecord Fault)} {piece : List UInt8}
      {r' : Bcj2Reader σ} (hran : Ran read r records piece r')
      (hleft : ∀ rest : Bcj2Stream → List UInt8, (∀ t, ToldEnd (records t) → rest t = []) →
        r'.uncompressedSize = 0 ∨ piece = [] →
          (r'.config rest).left r'.uncompressedSize = some []) :
      ReadEnd read r (.ok piece) r'

section

variable {checks : Bool} {destLim : Nat} {r r' : Bcj2Reader σ}

theorem endFault_mem {fault : Fault} (h : r.endFault = some fault) : fault ∈ faults := by
  unfold endFault at h
  split at h
  · cases h
  · split at h
    · cases h
      decide
    · split at h
      · cases h
        decide
      · cases h

theorem endFault_zero {fault : Fault} (h : r.endFault = some fault) : r.uncompressedSize = 0 := by
  by_contra hsize
  rw [endFault, if_pos hsize] at h
  cases h

theorem Sound.emptied (h : r.Sound checks) :
    Sound checks { r with decoder := { r.decoder with dest := [] } } :=
  ⟨⟨h.whole.length, h.whole.le, h.whole.whole, h.whole.low, h.whole.high, h.whole.few,
    h.whole.none, h.whole.readRes, h.whole.range⟩, h.ip⟩

theorem stops_le {phase : Phase} {range : UInt32} : phase.stops range ≤ 7 := by
  cases phase with
  | starting => exact Nat.sub_le _ _
  | top =>
      have := Bcj2Decoder.stops_top_le range
      omega
  | address | writing bytes => exact Nat.le_add_left _ _

theorem readInto_eq (hread : Honest read) (h : r.Sound checks) {buf : Nat} (hbuf : 0 < buf)
    (hsize : r.uncompressedSize ≠ 0) :
    ∃ answer r', readInto checks read buf r = (answer, r') ∧ r'.Sound checks ∧
      r'.uncompressedSize ≤ r.uncompressedSize ∧ answer.bytes.length ≤ buf ∧
      ReadEnd read { r with decoder := { r.decoder with dest := [] } } answer r' := by
  have hpos : min buf r.uncompressedSize ≠ 0 := by omega
  have hcost : Bcj2Decoder.cost (min buf r.uncompressedSize) r.decoder.phase
      { r.decoder with dest := [] } < 2 * min buf r.uncompressedSize + 8 := by
    have := @stops_le r.decoder.phase r.decoder.range
    change 2 * (min buf r.uncompressedSize - 0) + Phase.stops r.decoder.range r.decoder.phase < _
    omega
  obtain ⟨result, r', hloop, hsound, hle, hroom, hend⟩ :=
    @readLoop_eq σ read checks (min buf r.uncompressedSize)
      { r with decoder := { r.decoder with dest := [] } } hread
      (2 * min buf r.uncompressedSize + 8) h.emptied (Nat.zero_le _)
      (by change _ ≤ 0 + r.uncompressedSize; omega) (Nat.pos_of_ne_zero hpos) (Or.inl hcost)
  change readLoop checks read _ _ 0 _ = _ at hloop
  unfold readInto
  dsimp only
  rw [if_neg hpos, hloop]
  cases hend with
  | passed htrace hroomy hfault =>
      exact ⟨_, _, rfl, hsound, hle, Nat.zero_le _, .passed htrace hroomy hfault⟩
  | invalid hfault hran hnone =>
      exact ⟨_, _, rfl, hsound, hle, Nat.zero_le _, .invalid hfault hran hnone⟩
  | halted hran hhalted =>
      rename_i records out
      dsimp only
      cases hfault : r'.endFault with
      | some fault =>
          refine ⟨_, _, rfl, hsound, hle, Nat.zero_le _,
            .invalid (endFault_mem hfault) hran fun rest hrest => ?_⟩
          have hzero := endFault_zero hfault
          have hsum : out.length + r'.uncompressedSize = r.uncompressedSize := hran.size
          have hout : out.length ≤ r.uncompressedSize := by omega
          apply (hran.emits rest).left_eq_none hout
          rw [← hsum, Nat.add_sub_cancel_left, hzero,
            hhalted.left_zero hsound.whole hrest hzero, if_neg (by rw [hfault]; nofun)]
      | none =>
          have hdest : r'.decoder.dest = _ := hran.dest
          rw [List.nil_append] at hdest
          rw [← hdest] at hran
          refine ⟨_, _, rfl, hsound, hle, by change r'.decoder.dest.length ≤ buf; omega,
            .gave hran fun rest hrest hcase => ?_⟩
          by_cases hzero : r'.uncompressedSize = 0
          · rw [hzero, hhalted.left_zero hsound.whole hrest hzero, if_pos hfault]
          · have hnil := hcase.resolve_left hzero
            apply hhalted.left_of_room hrest ?_ hzero
            rw [hnil]
            exact Nat.pos_of_ne_zero hpos
  | short hran hne htorn =>
      have hdest : r'.decoder.dest = _ := hran.dest
      rw [List.nil_append] at hdest
      rw [← hdest] at hran
      refine ⟨_, _, rfl, hsound, hle, by change r'.decoder.dest.length ≤ buf; omega,
        .gave hran fun rest hrest hcase => ?_⟩
      rw [htorn.left hrest, if_pos (hcase.resolve_right hne)]

end

theorem readInto_done (hsize : r.uncompressedSize = 0) (buf : Nat) :
    readInto checks read buf r = (.ok [], r) := by
  unfold readInto
  dsimp only
  rw [if_pos (by omega)]

theorem readInto_empty : readInto checks read 0 r = (.ok [], r) := by
  unfold readInto
  dsimp only
  rw [if_pos (Nat.zero_min _)]

theorem new_whole (inputs : Bcj2Stream → σ) (size : Nat) : (new inputs size).Whole where
  length := List.length_replicate
  le _ := Nat.le_refl _
  whole s _ := by
    change 4 ∣ s.base - s.base
    rw [Nat.sub_self]
    exact Nat.dvd_zero 4
  low _ := Nat.le_refl _
  high s := by
    change s.base + 0 ≤ s.base + bufSize
    omega
  few _ := Nat.zero_lt_succ 3
  none _ _ := rfl
  readRes _ := rfl
  range := by
    have hrange : (new inputs size).decoder.range.toNat ≤ 5 := Nat.zero_le 5
    rw [Bcj2Decoder.phase_starting hrange]
    exact hrange

theorem new_sound (inputs : Bcj2Stream → σ) {size : Nat}
    (hsize : checks = true → size + 4 < 2 ^ 32) : (new inputs size).Sound checks where
  whole := new_whole inputs size
  ip hchecks := by
    have := hsize hchecks
    change 0 + size + 4 < 2 ^ 32 + 0
    omega

theorem new_config (inputs : Bcj2Stream → σ) (size : Nat) (rest : Bcj2Stream → List UInt8) :
    (new inputs size).config rest =
      ⟨.starting, {}, rest .main, ⟨rest .call, rest .jump⟩, rest .rc⟩ := by
  have hbehind : ∀ s, (new inputs size).behind s = [] := by
    intro s
    change window (new inputs size).bufs s.base (s.base + 0) = []
    rw [Nat.add_zero, window_self]
  simp only [config, hbehind, List.nil_append]
  rfl

theorem Sound.readInto (hread : Honest read) (h : r.Sound checks) {buf : Nat}
    {answer : ReadResult Fault} (hanswer : readInto checks read buf r = (answer, r')) :
    r'.Sound checks ∧ answer.bytes.length ≤ buf ∧
      answer.bytes.length + r'.uncompressedSize ≤ r.uncompressedSize ∧
      ∀ fault, answer = .error fault →
        fault ∈ faults ∨ ∃ buf t t', read buf t = (.error fault, t') := by
  by_cases hidle : buf = 0 ∨ r.uncompressedSize = 0
  · have hsame : Bcj2Reader.readInto checks read buf r = (.ok [], r) := by
      obtain rfl | hsize := hidle
      · exact readInto_empty
      · exact readInto_done hsize buf
    rw [hsame] at hanswer
    cases hanswer
    exact ⟨h, Nat.zero_le _, Nat.le_of_eq (Nat.zero_add _), nofun⟩
  · obtain ⟨hbuf, hsize⟩ := not_or.mp hidle
    obtain ⟨answer', r₁, hread', hsound, hle, hlength, hend⟩ :=
      readInto_eq hread h (Nat.pos_of_ne_zero hbuf) hsize
    rw [hread'] at hanswer
    cases hanswer
    refine ⟨hsound, hlength, ?_, ?_⟩
    · cases hend with
      | passed htrace hroomy hfault => exact Nat.le_trans (Nat.le_of_eq (Nat.zero_add _)) hle
      | invalid hfault hran hnone => exact Nat.le_trans (Nat.le_of_eq (Nat.zero_add _)) hle
      | gave hran hleft => exact Nat.le_of_eq hran.size
    · rintro fault rfl
      cases hend with
      | passed htrace hroomy hfault =>
          obtain ⟨record, hmem, hrecord⟩ := hfault
          obtain ⟨t, t', hfailed⟩ := htrace.read_of_mem hmem
          exact Or.inr ⟨_, t, t', hrecord ▸ hfailed⟩
      | invalid hfault hran hnone => exact Or.inl hfault

/-- Whatever the inputs answer, and whatever was read before, also after an error, a read never
panics by itself.  No more bytes come than the size. -/
theorem run_sound (hread : Honest read) (h : r.Sound checks) {records : List (ReadRecord Fault)}
    (hrun : Trace (Bcj2Reader.readInto checks read) r records r') :
    (delivered records).length + r'.uncompressedSize ≤ r.uncompressedSize ∧
      ∀ record ∈ records, record.result.bytes.length ≤ record.buf ∧
        ∀ fault, record.result = .error fault →
          fault ∈ faults ∨ ∃ buf t t', read buf t = (.error fault, t') := by
  induction hrun with
  | nil => exact ⟨Nat.le_of_eq (Nat.zero_add _), nofun⟩
  | @cons r r₁ r' buf answer records hanswer _ ih =>
      obtain ⟨hsound, hlength, hsum, hfaults⟩ := h.readInto hread hanswer
      obtain ⟨hrest, hall⟩ := ih hsound
      refine ⟨?_, List.forall_mem_cons.mpr ⟨⟨hlength, hfaults⟩, hall⟩⟩
      rw [delivered_cons, List.length_append]
      dsimp only
      omega

def Comes (checks : Bool) (Holds : List UInt8 → σ → Prop) (verdict : Option (List UInt8))
    (most : Nat) (r : Bcj2Reader σ) : Prop :=
  ∃ rest : Bcj2Stream → List UInt8, (∀ s, Holds (rest s) (r.inputs s)) ∧ r.Sound checks ∧
    most = r.uncompressedSize ∧
    verdict = if r.uncompressedSize = 0 then some [] else (r.config rest).left r.uncompressedSize

theorem judges (hread : Honest read) {Holds : List UInt8 → σ → Prop} (hserves : Serves read Holds) :
    Judges (Bcj2Reader.readInto checks read) (Comes checks Holds) := by
  rintro buf _ _ r hbuf ⟨rest, hholds, hsound, rfl, rfl⟩
  by_cases hsize : r.uncompressedSize = 0
  · refine Or.inr ⟨[], some [], 0, r, readInto_done hsize buf, ?_, ?_, ?_, rest, hholds, hsound,
      hsize.symm, (if_pos hsize).symm⟩
    · rw [if_pos hsize]
      rfl
    · rw [hsize]
      rfl
    · exact fun _ => if_pos hsize
  · rw [if_neg hsize]
    obtain ⟨answer, r', hanswer, hsound', -, -, hend⟩ := readInto_eq hread hsound hbuf hsize
    cases hend with
    | passed htrace hroomy hfault =>
        obtain ⟨record, hmem, hrecord⟩ := hfault
        exact absurd hrecord ((hserves.trace htrace hroomy (hholds _)).1 record hmem _)
    | @invalid records out _ fault hfault hran hnone =>
        have hall := fun s => (hserves.trace (hran.traces s) (hran.roomy s) (hholds s)).2
        choose left hsplit htold _ using hall
        refine Or.inl ⟨?_, fault, r', hanswer⟩
        have := hnone left htold
        rwa [← funext hsplit] at this
    | @gave records piece _ hran hleft =>
        have hall := fun s => (hserves.trace (hran.traces s) (hran.roomy s) (hholds s)).2
        choose left hsplit htold hheld using hall
        have hsum : piece.length + r'.uncompressedSize = r.uncompressedSize := hran.size
        have hemits := hran.emits left r.uncompressedSize (by omega)
        rw [← funext hsplit, ← hsum, Nat.add_sub_cancel_left] at hemits
        change (r.config rest).left _ = _ at hemits
        have hverdict : (if r'.uncompressedSize = 0 then some [] else
            (r'.config left).left r'.uncompressedSize) =
              (r'.config left).left r'.uncompressedSize := by
          split
          · rename_i hzero
            exact (hleft left htold (Or.inl hzero)).symm
          · rfl
        refine Or.inr ⟨piece, _, r'.uncompressedSize, r', hanswer, ?_, hsum.symm, ?_, left, hheld,
          hsound', rfl, rfl⟩
        · rw [hverdict, ← hsum]
          exact hemits
        · intro hnil
          rw [← hsum, hemits, hleft left htold (Or.inr hnil), hnil]
          rfl

end Bcj2Reader

/-- Whatever the inputs answer, and whatever was read before, also after an error, a read fails
only with an error of the format or with what an input failed with.  It never panics by itself,
and no more bytes come than the size. -/
theorem bcj2_run {σ : Type} (checks : Bool) {read : ReadFn Fault σ} (hread : Honest read)
    (inputs : Bcj2Stream → σ) {size : Nat} (hsize : checks = true → size + 4 < 2 ^ 32)
    {records : List (ReadRecord Fault)} {r' : Bcj2Reader σ}
    (hrun : Trace (Bcj2Reader.readInto checks read) (.new inputs size) records r') :
    (delivered records).length ≤ size ∧
      ∀ record ∈ records, record.result.bytes.length ≤ record.buf ∧
        ∀ fault, record.result = .error fault →
          fault ∈ Bcj2.faults ∨ ∃ buf t t', read buf t = (.error fault, t') := by
  obtain ⟨hlength, hall⟩ := Bcj2Reader.run_sound hread (Bcj2Reader.new_sound inputs hsize) hrun
  exact ⟨Nat.le_trans (Nat.le_add_right _ _) hlength, hall⟩

def markedStreams : Bcj2Stream → List UInt8
  | .main => [0x01, 0xE8, 0x02, 0x0F, 0x85, 0x03, 0xE9]
  | .call => [0x00, 0x00, 0x01, 0x00]
  | .jump => []
  | .rc => [0x00, 0x7F, 0xFF, 0xFC, 0x00]

def brokenStreams : Bcj2Stream → List (ReadResult Fault)
  | .main => [.ok [0x01, 0xE8], .ok [0x02, 0x0F, 0x85], .ok [0x03, 0xE9]]
  | .call => [.ok [0x00, 0x00], .error (.error (.ofIo .interrupted)), .ok [0x01, 0x00]]
  | .jump => []
  | .rc => [.ok [0x00, 0x7F], .ok [0xFF, 0xFC, 0x00]]

theorem bcj2_run_broken :
    (delivered (readInTurn (Bcj2Reader.readInto true scriptedRead) [4, 0, 5, 3]
      (.new brokenStreams 11)).1).length ≤ 11 :=
  (bcj2_run true scriptedRead_honest brokenStreams (by decide) (readInTurn_trace _ _ _)).1

/-- However the four inputs serve their streams, and whatever buffers the caller reads into, the
reader comes to what the streams decode to, or fails where they do not. -/
theorem bcj2_readUntilEnd {σ : Type} (checks : Bool) {read : ReadFn Fault σ} (hread : Honest read)
    {Holds : List UInt8 → σ → Prop} (hserves : Serves read Holds)
    {streams : Bcj2Stream → List UInt8} {inputs : Bcj2Stream → σ}
    (hinputs : ∀ s, Holds (streams s) (inputs s)) {size : Nat}
    (hsize : checks = true → size + 4 < 2 ^ 32) {bufs : List Nat} (hbufs : ∀ buf ∈ bufs, 0 < buf)
    (hmost : size < bufs.length) :
    ∃ result, readUntilEnd (Bcj2Reader.readInto checks read) bufs (.new inputs size) = some result ∧
      result.toOption = Bcj2.decode size streams := by
  apply (Bcj2Reader.judges hread hserves).result hbufs ?_ hmost
  refine ⟨streams, hinputs, Bcj2Reader.new_sound inputs hsize, rfl, ?_⟩
  rw [Bcj2Reader.new_config]
  rfl

theorem bcj2_readUntilEnd_marked :
    ∃ result, readUntilEnd
        (Bcj2Reader.readInto true (Source.upTo Fault [] (by decide : 0 < 3)).read)
        (3 :: 2 :: List.replicate 10 1) (.new markedStreams 11) = some result ∧
      result.toOption =
        some [0x01, 0xE8, 0xFA, 0x00, 0x00, 0x00, 0x02, 0x0F, 0x85, 0x03, 0xE9] := by
  have hdecode : Bcj2.decode 11 markedStreams =
      some [0x01, 0xE8, 0xFA, 0x00, 0x00, 0x00, 0x02, 0x0F, 0x85, 0x03, 0xE9] := by
    decide +kernel
  rw [← hdecode]
  exact bcj2_readUntilEnd true (Source.upTo_honest _) (Source.upTo Fault [] _).serves
    (fun _ => rfl) (by decide) (by decide) (by decide)

end Sevenz
