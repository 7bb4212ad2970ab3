import Sevenz.Codec.Bcj2Decoding

/-!
# The staged decoder decodes what the streams decode to

`decode` works on what has been staged of the streams.  Each part of it puts out what the
configuration puts out that has the same bytes at hand and any bytes behind them, and leaves a
decoder that stands for the rest.
-/

namespace Sevenz

open Lib Bcj2

namespace Bcj2

def Phase.pending : Phase → Nat
  | .writing bytes => bytes.length
  | _ => 0

def Phase.Allows : Phase → UInt32 → Prop
  | .starting, range => range.toNat ≤ 5
  | _, range => 2 ^ 16 ≤ range.toNat

/-- How many streams can run out before the next byte is put out. -/
def Phase.stops (range : UInt32) : Phase → Nat
  | .starting => 7 - range.toNat
  | .top => if range < topValue then 2 else 1
  | _ => 1

theorem Phase.Allows.low {phase : Phase} {range : UInt32} (h : phase.Allows range)
    (hphase : phase ≠ .starting) : 2 ^ 16 ≤ range.toNat := by
  cases phase with
  | starting => exact absurd rfl hphase
  | top | address | writing bytes => exact h

theorem Phase.allows_of_low {phase : Phase} {range : UInt32} (hphase : phase ≠ .starting)
    (h : 2 ^ 16 ≤ range.toNat) : phase.Allows range := by
  cases phase with
  | starting => exact absurd rfl hphase
  | top | address | writing bytes => exact h

end Bcj2

def Bcj2State.isTop : Bcj2State → Bool
  | .stream s => !s.is32bit
  | .orig03 _ => false
  | .orig | .ok => true

namespace Bcj2Decoder

def core (d : Bcj2Decoder) : Core := ⟨d.ip, (getElem d.temp 3 last_lt), d.range, d.code, d.probs⟩

def held (src : List UInt8) (d : Bcj2Decoder) (s : Bcj2Stream) : List UInt8 :=
  window src (d.bufs s) (d.lims s)

def config (src : List UInt8) (rest : Bcj2Stream → List UInt8) (phase : Phase)
    (d : Bcj2Decoder) : Config where
  phase
  core := d.core
  main := d.held src .main ++ rest .main
  sides := ⟨d.held src .call ++ rest .call, d.held src .jump ++ rest .jump⟩
  rc := d.held src .rc ++ rest .rc

def phase (d : Bcj2Decoder) : Phase :=
  if d.range ≤ 5 then .starting
  else
    match d.state with
    | .stream s => if s.is32bit then .address else .top
    | .orig03 k => .writing (d.temp.toList.drop k)
    | .orig | .ok => .top

def waits (phase : Phase) (d : Bcj2Decoder) : Bcj2Stream :=
  match phase with
  | .starting => .rc
  | .address => addressStream (getElem d.temp 3 last_lt)
  | _ => if d.range < topValue then .rc else .main

/-- The staged bytes lie in the buffer, and those of the addresses are whole addresses. -/
structure Fits (src : List UInt8) (d : Bcj2Decoder) : Prop where
  le : ∀ s, d.bufs s ≤ d.lims s
  inside : ∀ s, d.lims s ≤ src.length
  whole : ∀ s, s.is32bit = true → 4 ∣ d.lims s - d.bufs s

structure Ready (src : List UInt8) (destLim : Nat) (phase : Phase) (d : Bcj2Decoder) : Prop where
  fits : d.Fits src
  range : phase.Allows d.range
  room : d.dest.length ≤ destLim

def IpRoom (checks : Bool) (wanted : Nat) (phase : Phase) (d : Bcj2Decoder) : Prop :=
  checks = true → d.ip.toNat + wanted + 4 < 2 ^ 32 + phase.pending

def cost (destLim : Nat) (phase : Phase) (d : Bcj2Decoder) : Nat :=
  2 * (destLim - d.dest.length) + phase.stops d.range

structure Went (checks : Bool) (src : List UInt8) (destLim : Nat) (phase : Phase)
    (d : Bcj2Decoder) (out : List UInt8) (phase' : Phase) (d' : Bcj2Decoder) : Prop where
  ready : d'.Ready src destLim phase'
  lims : d'.lims = d.lims
  forward : ∀ s, d.bufs s ≤ d'.bufs s
  dest : d'.dest = d.dest ++ out
  emits : ∀ rest, (d.config src rest phase).Emits out (d'.config src rest phase')
  ip : ∀ wanted, d.IpRoom checks (out.length + wanted) phase → d'.IpRoom checks wanted phase'
  cost : d'.cost destLim phase' ≤ d.cost destLim phase

section

variable {checks : Bool} {src : List UInt8} {destLim : Nat} {phase phase' phase'' : Phase}
  {d d' d'' : Bcj2Decoder} {out out' : List UInt8}

theorem Went.trans (h : Went checks src destLim phase d out phase' d')
    (h' : Went checks src destLim phase' d' out' phase'' d'') :
    Went checks src destLim phase d (out ++ out') phase'' d'' where
  ready := h'.ready
  lims := h'.lims.trans h.lims
  forward s := Nat.le_trans (h.forward s) (h'.forward s)
  dest := by rw [h'.dest, h.dest, List.append_assoc]
  emits rest := (h.emits rest).trans (h'.emits rest)
  ip wanted hip := by
    rw [List.length_append, Nat.add_assoc] at hip
    exact h'.ip wanted (h.ip _ hip)
  cost := Nat.le_trans h'.cost h.cost

theorem Ready.went_state (h : d.Ready src destLim phase) (state : Bcj2State) :
    Went checks src destLim phase d [] phase { d with state } where
  ready := ⟨⟨h.fits.le, h.fits.inside, h.fits.whole⟩, h.range, h.room⟩
  lims := rfl
  forward _ := Nat.le_refl _
  dest := (List.append_nil _).symm
  emits rest := .refl _
  ip wanted hip := by
    rw [List.length_nil, Nat.zero_add] at hip
    exact hip
  cost := Nat.le_refl _

theorem Ready.went_refl (h : d.Ready src destLim phase) :
    Went checks src destLim phase d [] phase d := h.went_state d.state

theorem Fits.advance (h : d.Fits src) (d' : Bcj2Decoder) {s : Bcj2Stream} {next : Nat}
    (hle : d.bufs s ≤ next) (hlim : next ≤ d.lims s)
    (hwhole : s.is32bit = true → 4 ∣ d.lims s - next)
    (hbufs : d'.bufs = Function.update d.bufs s next) (hlims : d'.lims = d.lims) :
    d'.Fits src ∧ ∀ t, d.bufs t ≤ d'.bufs t := by
  have hcases : ∀ t, (t = s ∧ d'.bufs t = next) ∨ (t ≠ s ∧ d'.bufs t = d.bufs t) := by
    intro t
    rw [hbufs]
    by_cases ht : t = s
    · subst ht
      exact Or.inl ⟨rfl, Function.update_self _ _ _⟩
    · exact Or.inr ⟨ht, Function.update_of_ne ht _ _⟩
  refine ⟨⟨fun t => ?_, fun t => ?_, fun t ht => ?_⟩, fun t => ?_⟩
  · obtain ⟨rfl, hnext⟩ | ⟨-, hsame⟩ := hcases t
    · rw [hnext, hlims]
      exact hlim
    · rw [hsame, hlims]
      exact h.le t
  · rw [hlims]
    exact h.inside t
  · obtain ⟨rfl, hnext⟩ | ⟨-, hsame⟩ := hcases t
    · rw [hnext, hlims]
      exact hwhole ht
    · rw [hsame, hlims]
      exact h.whole t ht
  · obtain ⟨rfl, hnext⟩ | ⟨-, hsame⟩ := hcases t
    · rw [hnext]
      exact hle
    · exact Nat.le_of_eq hsame.symm

theorem Fits.byte (h : d.Fits src) {s : Bcj2Stream} (hne : d.bufs s ≠ d.lims s) :
    ∃ b, src[d.bufs s]? = some b ∧ d.held src s = b :: window src (d.bufs s + 1) (d.lims s) := by
  have hlt : d.bufs s < d.lims s := Nat.lt_of_le_of_ne (h.le s) hne
  have hinside : d.bufs s < src.length := Nat.lt_of_lt_of_le hlt (h.inside s)
  have hbyte := List.getElem?_eq_getElem hinside
  exact ⟨_, hbyte, window_cons hlt hbyte⟩

theorem Fits.takeRc (h : d.Fits src) (hne : d.bufs .rc ≠ d.lims .rc) :
    ∃ b, d.takeRc src = .ok { d with
        code := d.core.nextCode b
        bufs := Function.update d.bufs .rc (d.bufs .rc + 1) } ∧
      d.held src .rc = b :: window src (d.bufs .rc + 1) (d.lims .rc) := by
  obtain ⟨b, hbyte, hheld⟩ := h.byte hne
  refine ⟨b, ?_, hheld⟩
  rw [Bcj2Decoder.takeRc, Result.index_eq_ok.mpr hbyte]
  rfl

theorem Ready.normalize (h : d.Ready src destLim phase) (hphase : phase ≠ .starting) :
    (d.normalize src = .ok none ∧ d.range < topValue ∧ d.bufs .rc = d.lims .rc) ∨
      ∃ d', d.normalize src = .ok (some d') ∧ Went checks src destLim phase d [] phase d' ∧
        ¬ d'.range < topValue ∧ d'.state = d.state ∧ d'.temp = d.temp ∧
        (∀ s, s ≠ .rc → d'.bufs s = d.bufs s) ∧
        (d.range < topValue → phase = .top → d'.cost destLim phase < d.cost destLim phase) := by
  have hlow := h.range.low hphase
  unfold Bcj2Decoder.normalize
  by_cases hsmall : d.range < topValue
  · rw [if_pos hsmall]
    by_cases hnone : d.bufs .rc = d.lims .rc
    · rw [if_pos hnone]
      exact Or.inl ⟨rfl, hsmall, hnone⟩
    · rw [if_neg hnone]
      obtain ⟨b, htake, hheld⟩ := h.fits.takeRc hnone
      have hlt : d.bufs .rc < d.lims .rc := Nat.lt_of_le_of_ne (h.fits.le .rc) hnone
      have hwide := Core.wide_of_shift hlow hsmall
      have hcost : ∀ phase, phase ≠ .starting →
          Phase.stops (d.range <<< 8) phase ≤ Phase.stops d.range phase := by
        intro phase hphase
        cases phase with
        | starting => exact absurd rfl hphase
        | top =>
            rw [Phase.stops, Phase.stops, if_neg (Core.not_small_of_wide hwide), if_pos hsmall]
            exact Nat.le_succ 1
        | address | writing bytes => exact Nat.le_refl _
      refine Or.inr ⟨_, Result.bind_of_ok htake, ?_, Core.not_small_of_wide hwide, rfl, rfl,
        fun s hs => Function.update_of_ne hs _ _, ?_⟩
      · obtain ⟨hfits, hforward⟩ := h.fits.advance { d with
          range := d.range <<< 8
          code := d.core.nextCode b
          bufs := Function.update d.bufs .rc (d.bufs .rc + 1) } (Nat.le_succ _) hlt nofun rfl rfl
        refine ⟨⟨hfits, ?_, h.room⟩, rfl, hforward, (List.append_nil _).symm, fun rest => ?_,
          fun wanted hip => ?_, ?_⟩
        · exact Phase.allows_of_low hphase (Nat.le_trans (by decide) hwide)
        · have hsettle := Core.settle_of_small (c := d.core) hsmall b
            (window src (d.bufs .rc + 1) (d.lims .rc) ++ rest .rc)
          rw [config, hheld]
          exact Config.emits_settle hphase hlow hsettle
        · rw [List.length_nil, Nat.zero_add] at hip
          exact hip
        · exact Nat.add_le_add_left (hcost phase hphase) _
      · intro _ htop
        subst htop
        refine Nat.add_lt_add_left ?_ _
        rw [Phase.stops, Phase.stops, if_neg (Core.not_small_of_wide hwide), if_pos hsmall]
        exact Nat.one_lt_two
  · rw [if_neg hsmall]
    exact Or.inr ⟨d, rfl, h.went_refl, hsmall, rfl, rfl, fun _ _ => rfl,
      fun h => absurd h hsmall⟩

end

end Bcj2Decoder

namespace Bcj2

theorem not_marked_0F (prev : UInt8) : ¬ Marked prev 0x0F := by
  rintro (h | ⟨-, h⟩)
  · exact absurd h (by decide)
  · exact absurd h (by decide)

/-- The bytes up to a marker or to the end of those at hand, and with them the marker, have been
written. -/
structure Scanned (src : List UInt8) (srcLim : Nat) (prev : UInt8) (pos : Nat)
    (dest : List UInt8) (pos' : Nat) (dest' : List UInt8) : Prop where
  le : pos ≤ pos'
  unmarked : Unmarked prev (window src pos pos')
  stop : (pos' = srcLim ∧ dest' = dest ++ window src pos pos') ∨
    (pos' < srcLim ∧ ∃ b, src[pos']? = some b ∧
      Marked ((window src pos pos').getLast?.getD prev) b ∧
      dest' = dest ++ (window src pos pos' ++ [b]))

section

variable {src : List UInt8} {srcLim destLim : Nat} {prev b : UInt8} {pos pos' : Nat}
  {dest dest' : List UInt8}

theorem Scanned.ended : Scanned src srcLim prev srcLim dest srcLim dest where
  le := Nat.le_refl _
  unmarked := by
    rw [window_self]
    trivial
  stop := Or.inl ⟨rfl, by rw [window_self, List.append_nil]⟩

theorem Scanned.marker (hpos : pos < srcLim) (hb : src[pos]? = some b) (hmark : Marked prev b) :
    Scanned src srcLim prev pos dest pos (dest ++ [b]) where
  le := Nat.le_refl _
  unmarked := by
    rw [window_self]
    trivial
  stop := Or.inr ⟨hpos, b, hb, by rwa [window_self], by rw [window_self, List.nil_append]⟩

theorem Scanned.cons (hb : src[pos]? = some b) (hmark : ¬ Marked prev b)
    (h : Scanned src srcLim b (pos + 1) (dest ++ [b]) pos' dest') :
    Scanned src srcLim prev pos dest pos' dest' := by
  have hwindow : window src pos pos' = b :: window src (pos + 1) pos' := window_cons h.le hb
  refine ⟨Nat.le_of_succ_le h.le, ?_, ?_⟩
  · rw [hwindow]
    exact ⟨hmark, h.unmarked⟩
  · rw [hwindow, List.getLast?_cons, Option.getD_some]
    refine h.stop.imp ?_ ?_
    · rintro ⟨hend, hdest⟩
      exact ⟨hend, by rw [hdest, List.append_assoc, List.singleton_append]⟩
    · rintro ⟨hlt, marker, hmarker, hmarked, hdest⟩
      refine ⟨hlt, marker, hmarker, hmarked, ?_⟩
      rw [hdest, List.append_assoc, List.singleton_append, List.cons_append]

theorem putByte_of_lt (h : dest.length < destLim) (b : UInt8) :
    putByte destLim dest b = .ok (dest ++ [b]) := if_pos h

/-- The loop writes up to the first marker.  A byte behind `0F` it looks at beforehand. -/
theorem scan_scanned (hlim : srcLim ≤ src.length) {rounds : Nat} (hrounds : srcLim - pos ≤ rounds)
    (hpos : pos < srcLim) (hroom : dest.length + (srcLim - pos) ≤ destLim)
    (hfirst : ∀ b, src[pos]? = some b → ¬ (prev = 0x0F ∧ b &&& 0xF0 = 0x80)) :
    ∃ pos' dest', scan src srcLim destLim rounds pos dest = .ok (pos', dest') ∧
      Scanned src srcLim prev pos dest pos' dest' := by
  induction rounds generalizing pos dest prev with
  | zero => omega
  | succ rounds ih =>
      have hb : src[pos]? = some src[pos] := List.getElem?_eq_getElem (by omega)
      generalize src[pos] = b at hb
      have hput : putByte destLim dest b = .ok (dest ++ [b]) := putByte_of_lt (by omega) b
      have hlength : ∀ b, (dest ++ [b]).length = dest.length + 1 := fun _ => List.length_append
      have hroom' : ∀ b, (dest ++ [b]).length + (srcLim - (pos + 1)) ≤ destLim := by
        intro b
        rw [hlength]
        omega
      rw [scan, Result.bind_of_ok (Result.index_eq_ok.mpr hb), Result.bind_of_ok hput]
      by_cases h0F : b = 0x0F
      · subst h0F
        rw [if_neg (by simp)]
        by_cases hend : pos + 1 = srcLim
        · rw [if_pos hend]
          subst hend
          exact ⟨_, _, rfl, Scanned.ended.cons hb (not_marked_0F prev)⟩
        · rw [if_neg hend]
          have hnext : src[pos + 1]? = some src[pos + 1] := List.getElem?_eq_getElem (by omega)
          generalize src[pos + 1] = next at hnext
          rw [Result.bind_of_ok (Result.index_eq_ok.mpr hnext)]
          by_cases hjump : next &&& 0xF0 = 0x80
          · have hput' : putByte destLim (dest ++ [0x0F]) next = .ok (dest ++ [0x0F] ++ [next]) :=
              putByte_of_lt (by rw [hlength]; omega) next
            rw [if_neg (not_not.mpr hjump), Result.bind_of_ok hput']
            exact ⟨_, _, rfl, (Scanned.marker (by omega) hnext (Or.inr ⟨rfl, hjump⟩)).cons hb
              (not_marked_0F prev)⟩
          · rw [if_pos hjump]
            have hfirst' : ∀ b, src[pos + 1]? = some b →
                ¬ ((0x0F : UInt8) = 0x0F ∧ b &&& 0xF0 = 0x80) := by
              intro b hb hmark
              rw [hnext] at hb
              cases hb
              exact hjump hmark.2
            obtain ⟨pos', dest', hscan, hscanned⟩ :=
              ih (by omega) (by omega) (hroom' 0x0F) hfirst'
            exact ⟨pos', dest', hscan, hscanned.cons hb (not_marked_0F prev)⟩
      · rw [if_pos h0F]
        by_cases hcall : b &&& 0xFE = 0xE8
        · rw [if_pos hcall]
          exact ⟨_, _, rfl, .marker hpos hb (Or.inl hcall)⟩
        · have hmark : ¬ Marked prev b := by
            rintro (h | h)
            · exact hcall h
            · exact hfirst b hb h
          rw [if_neg hcall]
          by_cases hend : pos + 1 = srcLim
          · rw [if_neg (not_not.mpr hend)]
            subst hend
            exact ⟨_, _, rfl, Scanned.ended.cons hb hmark⟩
          · rw [if_pos hend]
            obtain ⟨pos', dest', hscan, hscanned⟩ :=
              ih (by omega) (by omega) (hroom' b) (fun _ _ (h : b = 0x0F ∧ _) => h0F h.1)
            exact ⟨pos', dest', hscan, hscanned.cons hb hmark⟩

end

theorem checkedSub_of_le {a b : Nat} (h : b ≤ a) : checkedSub a b = .ok (a - b) := if_pos h

theorem addIp_of_room {checks : Bool} {ip : UInt32} {n : Nat}
    (h : checks = true → ip.toNat + n < 2 ^ 32) :
    addIp checks ip n = .ok (ip + UInt32.ofNat n) := by
  apply if_neg
  rintro ⟨hchecks, hfull⟩
  exact Nat.not_lt.mpr hfull (h hchecks)

theorem toNat_add_le (ip : UInt32) (n : Nat) : (ip + UInt32.ofNat n).toNat ≤ ip.toNat + n := by
  rw [UInt32.toNat_add, UInt32.toNat_ofNat']
  exact Nat.le_trans (Nat.mod_le _ _) (Nat.add_le_add_left (Nat.mod_le _ _) _)

end Bcj2

namespace Bcj2Decoder

section

variable {checks : Bool} {src : List UInt8} {destLim wanted : Nat} {d : Bcj2Decoder}

/-- Why `decode` returns: a stream has run out, or there is no more room. -/
inductive Stopped (destLim : Nat) (phase : Phase) (d : Bcj2Decoder) : Prop where
  | ranOut (hstate : d.state = .stream (d.waits phase))
      (hempty : d.bufs (d.waits phase) = d.lims (d.waits phase))
      (hgood : phase = .starting → d.range ≠ 5 ∧ ¬ (d.range = 1 ∧ d.code ≠ 0))
  | full (hstate : d.state = .orig) (hwide : ¬ d.range < topValue)
      (hfull : d.dest.length = destLim)
  | within {k : Fin 4} (hstate : d.state = .orig03 k) (hfull : d.dest.length = destLim)
      (hphase : phase ≠ .starting)

inductive Outcome (checks : Bool) (src : List UInt8) (destLim : Nat) (phase : Phase)
    (d : Bcj2Decoder) : Next × Bcj2Decoder → Prop where
  | goOn (out : List UInt8) {d' : Bcj2Decoder} (hout : 0 < out.length)
      (hwent : Went checks src destLim phase d out .top d') (htop : d'.state.isTop = true)
      (hcost : d'.cost destLim .top < d.cost destLim phase) :
      Outcome checks src destLim phase d (.goOn, d')
  | stop (out : List UInt8) {d' : Bcj2Decoder}
      (hwent : Went checks src destLim phase d out .top d') (hphase : d'.phase = .top)
      (hstopped : d'.Stopped destLim .top)
      (hcost : d.bufs (d.waits phase) ≠ d.lims (d.waits phase) →
        (∃ s, d'.state = .stream s) → d'.cost destLim .top < d.cost destLim phase) :
      Outcome checks src destLim phase d (.ret true, d')
  | starve (out : List UInt8) {d' : Bcj2Decoder}
      (hwent : Went checks src destLim phase d out .address d')
      (hstate : d'.state = .stream (addressStream (getElem d'.temp 3 last_lt)))
      (hempty : d'.bufs (addressStream (getElem d'.temp 3 last_lt)) =
        d'.lims (addressStream (getElem d'.temp 3 last_lt)))
      (hcost : d.bufs (d.waits phase) ≠ d.lims (d.waits phase) →
        d'.cost destLim .address < d.cost destLim phase) :
      Outcome checks src destLim phase d (.leave, d')
  | tear (out : List UInt8) {k : Fin 4} {d' : Bcj2Decoder}
      (hwent : Went checks src destLim phase d out (.writing (d'.temp.toList.drop k)) d')
      (hstate : d'.state = .orig03 k) (hfull : d'.dest.length = destLim) :
      Outcome checks src destLim phase d (.leave, d')

theorem phase_eq (hrange : 2 ^ 16 ≤ d.range.toNat) :
    d.phase = match d.state with
      | .stream s => if s.is32bit then .address else .top
      | .orig03 k => .writing (d.temp.toList.drop k)
      | .orig | .ok => .top := by
  rw [phase, if_neg]
  · rw [UInt32.le_iff_toNat_le]
    exact Nat.not_le.mpr (Nat.lt_of_lt_of_le (by decide) hrange)

theorem phase_of_isTop (hrange : 2 ^ 16 ≤ d.range.toNat) (htop : d.state.isTop = true) :
    d.phase = .top := by
  rw [phase_eq hrange]
  cases hstate : d.state with
  | stream s =>
      rw [hstate] at htop
      cases s <;> first | rfl | cases htop
  | orig03 k =>
      rw [hstate] at htop
      cases htop
  | orig => rfl
  | ok => rfl

theorem phase_of_stream {s : Bcj2Stream} (hrange : 2 ^ 16 ≤ d.range.toNat)
    (hstate : d.state = .stream s) (hs : s.is32bit = true) : d.phase = .address := by
  rw [phase_eq hrange, hstate]
  exact if_pos hs

theorem phase_of_orig03 {k : Fin 4} (hrange : 2 ^ 16 ≤ d.range.toNat)
    (hstate : d.state = .orig03 k) : d.phase = .writing (d.temp.toList.drop k) := by
  rw [phase_eq hrange, hstate]

theorem addressStream_is32bit (b : UInt8) : (addressStream b).is32bit = true := by
  unfold addressStream
  split <;> rfl

theorem phase_of_waits {phase : Phase} (hs : (d.waits phase).is32bit = true) :
    phase = .address := by
  cases phase with
  | starting => cases hs
  | address => rfl
  | top | writing bytes =>
      change (if d.range < topValue then Bcj2Stream.rc else .main).is32bit = true at hs
      split at hs
      · cases hs
      · cases hs

theorem sides_get (src : List UInt8) (rest : Bcj2Stream → List UInt8) (phase : Phase)
    (d : Bcj2Decoder) (b : UInt8) :
    (d.config src rest phase).sides.get b =
      d.held src (addressStream b) ++ rest (addressStream b) := by
  unfold Sides.get addressStream
  split <;> rfl

theorem Fits.word (h : d.Fits src) {s : Bcj2Stream} (hs : s.is32bit = true)
    (hne : d.bufs s ≠ d.lims s) :
    ∃ b₀ b₁ b₂ b₃ tail, src.drop (d.bufs s) = b₀ :: b₁ :: b₂ :: b₃ :: tail ∧
      d.held src s = b₀ :: b₁ :: b₂ :: b₃ :: window src (d.bufs s + 4) (d.lims s) ∧
      d.bufs s + 4 ≤ d.lims s := by
  have hle := h.le s
  have hinside := h.inside s
  have hfour : d.bufs s + 4 ≤ d.lims s := by
    have := Nat.le_of_dvd (by omega) (h.whole s hs)
    omega
  refine ⟨src[d.bufs s], src[d.bufs s + 1], src[d.bufs s + 2], src[d.bufs s + 3],
    src.drop (d.bufs s + 4), ?_, ?_, hfour⟩
  · rw [List.drop_eq_getElem_cons (by omega), List.drop_eq_getElem_cons (by omega),
      List.drop_eq_getElem_cons (by omega), List.drop_eq_getElem_cons (by omega)]
  · rw [held, window_cons (by omega) (List.getElem?_eq_getElem (by omega)),
      window_cons (by omega) (List.getElem?_eq_getElem (by omega)),
      window_cons (by omega) (List.getElem?_eq_getElem (by omega)),
      window_cons (by omega) (List.getElem?_eq_getElem (by omega))]

theorem config_word {d' : Bcj2Decoder} {b : UInt8} {next : Nat}
    (hbufs : d'.bufs = Function.update d.bufs (addressStream b) next) (hlims : d'.lims = d.lims)
    (rest : Bcj2Stream → List UInt8) (phase : Phase) :
    d'.config src rest phase = ⟨phase, d'.core, d.held src .main ++ rest .main,
      (d.config src rest phase).sides.set b
        (window src next (d.lims (addressStream b)) ++ rest (addressStream b)),
      d.held src .rc ++ rest .rc⟩ := by
  unfold config held
  rw [hbufs, hlims]
  by_cases hb : b = 0xE8
  · subst hb
    rfl
  · simp only [addressStream, Sides.set, hb, if_false]
    rfl

theorem toList_length (bytes : Vector UInt8 4) : bytes.toList.length = 4 := by simp

theorem stops_top_le (range : UInt32) : Phase.stops range .top ≤ 2 := by
  change (if range < topValue then 2 else 1) ≤ 2
  split <;> decide

theorem stops_top_pos (range : UInt32) : 1 ≤ Phase.stops range .top := by
  change 1 ≤ if range < topValue then 2 else 1
  split <;> decide

theorem Ready.went_address (h : d.Ready src destLim .address) {b₀ b₁ b₂ b₃ : UInt8}
    {bytes : Vector UInt8 4} {out left : List UInt8} {phase' : Phase} {d' : Bcj2Decoder}
    (hne : d.bufs (addressStream (getElem d.temp 3 last_lt)) ≠
      d.lims (addressStream (getElem d.temp 3 last_lt)))
    (hheld : d.held src (addressStream (getElem d.temp 3 last_lt)) = b₀ :: b₁ :: b₂ :: b₃ ::
      window src (d.bufs (addressStream (getElem d.temp 3 last_lt)) + 4)
        (d.lims (addressStream (getElem d.temp 3 last_lt))))
    (hbytes : leBytes32 (beValue32 b₀ b₁ b₂ b₃ - (d.ip + 4)) = bytes)
    (hout : bytes.toList = out ++ left)
    (hbufs : d'.bufs = Function.update d.bufs (addressStream (getElem d.temp 3 last_lt))
      (d.bufs (addressStream (getElem d.temp 3 last_lt)) + 4))
    (hlims : d'.lims = d.lims)
    (hcore : d'.core = { d.core with ip := d.ip + 4, prev := getElem bytes 3 last_lt })
    (hdest : d'.dest = d.dest ++ out) (hroom : d'.dest.length ≤ destLim)
    (hphase : phase' ≠ .starting) (hpending : phase'.pending = left.length)
    (hwritten : ∀ core main sides rc,
      Config.Emits ⟨.writing left, core, main, sides, rc⟩ [] ⟨phase', core, main, sides, rc⟩)
    (hcost : d'.cost destLim phase' ≤ d.cost destLim .address) :
    Went checks src destLim .address d out phase' d' := by
  have hlow : 2 ^ 16 ≤ d.range.toNat := h.range
  have hrange : d'.range = d.range := congrArg Core.range hcore
  have hip : d'.ip = d.ip + 4 := congrArg Core.ip hcore
  have htarget : d.core.target (beValue32 b₀ b₁ b₂ b₃) = bytes := hbytes
  have hjumped : d'.core = d.core.jumped (beValue32 b₀ b₁ b₂ b₃) := by
    rw [hcore, Core.jumped, htarget]
    rfl
  have hlength : out.length + left.length = 4 := by
    rw [← List.length_append, ← hout, toList_length]
  have hle := h.fits.le (addressStream d.temp[3])
  have hwhole := h.fits.whole _ (addressStream_is32bit d.temp[3])
  have hfour := Nat.le_of_dvd (by omega) hwhole
  obtain ⟨hfits, hforward⟩ := h.fits.advance d' (Nat.le_add_right _ 4) (by omega)
    (fun _ => by omega) hbufs hlims
  refine ⟨⟨hfits, ?_, hroom⟩, hlims, hforward, hdest, fun rest => ?_,
    fun wanted hroom hchecks => ?_, hcost⟩
  · rw [hrange]
    exact Phase.allows_of_low hphase hlow
  · have hget := sides_get src rest .address d d.temp[3]
    rw [hheld] at hget
    have hemits := @Config.emits_address d.core (d.held src .main ++ rest .main)
      (d.held src .rc ++ rest .rc) _ _ _ _ _ _ hget
    rw [htarget, hout] at hemits
    have hall := (hemits.trans (Config.emits_writing out left)).trans (hwritten _ _ _ _)
    rw [List.nil_append, List.append_nil] at hall
    rw [config_word hbufs hlims, hjumped]
    exact hall
  · have hbefore : d.ip.toNat + (out.length + wanted) + 4 < 2 ^ 32 + 0 := hroom hchecks
    have hafter : (d.ip + 4).toNat ≤ d.ip.toNat + 4 := toNat_add_le d.ip 4
    rw [hip, hpending]
    omega

theorem Ready.readAddress (h : d.Ready src destLim .address) (htop : d.state.isTop = true)
    (hip : d.IpRoom checks wanted .address) :
    ∃ result, d.readAddress checks src destLim = .ok result ∧
      d.Outcome checks src destLim .address result := by
  have hlow : 2 ^ 16 ≤ d.range.toNat := h.range
  have hroom := h.room
  unfold Bcj2Decoder.readAddress
  dsimp only
  by_cases hempty : d.bufs (addressStream d.temp[3]) = d.lims (addressStream d.temp[3])
  · rw [if_pos hempty]
    exact ⟨_, rfl, .starve [] (h.went_state _) rfl hempty (fun hne => absurd hempty hne)⟩
  · rw [if_neg hempty]
    obtain ⟨b₀, b₁, b₂, b₃, tail, hdrop, hheld, hfour⟩ :=
      h.fits.word (addressStream_is32bit _) hempty
    have hinside := h.fits.inside (addressStream d.temp[3])
    have hadd : addIp checks d.ip 4 = .ok (d.ip + 4) := by
      apply addIp_of_room
      intro hchecks
      have : d.ip.toNat + wanted + 4 < 2 ^ 32 + 0 := hip hchecks
      omega
    have hslice : Result.sliceCheck (d.bufs (addressStream d.temp[3])) src = .ok () :=
      Result.sliceCheck_eq_ok.mpr (by omega)
    rw [Result.bind_of_ok hslice, hdrop]
    dsimp only
    rw [Result.bind_of_ok hadd, Result.bind_of_ok (checkedSub_of_le hroom)]
    generalize hbytes : leBytes32 (beValue32 b₀ b₁ b₂ b₃ - (d.ip + 4)) = bytes
    have hlength := toList_length bytes
    split
    · rename_i hrem
      have hfull : (d.dest ++ bytes.toList.take (destLim - d.dest.length)).length = destLim := by
        rw [List.length_append, List.length_take]
        omega
      refine ⟨_, rfl, .tear (bytes.toList.take (destLim - d.dest.length)) ?_ rfl hfull⟩
      refine h.went_address hempty hheld hbytes (List.take_append_drop _ _).symm rfl rfl rfl rfl
        (Nat.le_of_eq hfull) nofun rfl (fun _ _ _ _ => .refl _) ?_
      change 2 * (destLim - (d.dest ++ _).length) + 1 ≤ 2 * (destLim - d.dest.length) + 1
      rw [hfull]
      omega
    · rename_i hrem
      have hlonger : (d.dest ++ bytes.toList).length = d.dest.length + 4 := by
        rw [List.length_append, hlength]
      have hcost : 2 * (destLim - (d.dest ++ bytes.toList).length) + Phase.stops d.range .top <
          2 * (destLim - d.dest.length) + 1 := by
        have := stops_top_le d.range
        rw [hlonger]
        omega
      have hout : 0 < bytes.toList.length := by
        rw [hlength]
        decide
      refine ⟨_, rfl, .goOn _ hout (h.went_address hempty hheld hbytes (List.append_nil _).symm rfl
        rfl ?_ rfl ?_ nofun rfl (fun _ _ _ _ => Config.emits_written) (Nat.le_of_lt hcost)) htop
        hcost⟩
      · change (⟨d.ip + 4, (d.temp.set 3 bytes[3])[3], d.range, d.code, d.probs⟩ : Core) = _
        rw [Vector.getElem_set_self]
        rfl
      · change (d.dest ++ bytes.toList).length ≤ destLim
        rw [hlonger]
        omega

theorem config_main {d' : Bcj2Decoder} {next : Nat}
    (hbufs : d'.bufs = Function.update d.bufs .main next) (hlims : d'.lims = d.lims)
    (rest : Bcj2Stream → List UInt8) (phase : Phase) :
    d'.config src rest phase = ⟨phase, d'.core,
      window src next (d.lims .main) ++ rest .main, (d.config src rest .top).sides,
      (d.config src rest .top).rc⟩ := by
  unfold config held
  rw [hbufs, hlims]
  rfl

theorem Ready.went_plain (h : d.Ready src destLim .top) (d' : Bcj2Decoder)
    (hwide : ¬ d.range < topValue) {pos : Nat} (hle : d.bufs .main ≤ pos)
    (hlim : pos ≤ d.lims .main)
    (hplain : Unmarked (getElem d.temp 3 last_lt) (window src (d.bufs .main) pos))
    (hbufs : d'.bufs = Function.update d.bufs .main pos) (hlims : d'.lims = d.lims)
    (hcore : d'.core = (window src (d.bufs .main) pos).foldl Core.pass d.core)
    (hdest : d'.dest = d.dest ++ window src (d.bufs .main) pos)
    (hroom : d'.dest.length ≤ destLim) :
    Went checks src destLim .top d (window src (d.bufs .main) pos) .top d' := by
  have hlow : 2 ^ 16 ≤ d.range.toNat := h.range
  rw [foldl_pass] at hcore
  have hrange : d'.range = d.range := congrArg Core.range hcore
  have hip : d'.ip = d.ip + UInt32.ofNat (window src (d.bufs .main) pos).length :=
    congrArg Core.ip hcore
  obtain ⟨hfits, hforward⟩ := h.fits.advance d' hle hlim nofun hbufs hlims
  refine ⟨⟨hfits, ?_, hroom⟩, hlims, hforward, hdest, fun rest => ?_,
    fun wanted hroom hchecks => ?_, ?_⟩
  · rw [hrange]
    exact hlow
  · have hsplit := window_append src hle hlim
    rw [config_main hbufs hlims, hcore, ← foldl_pass, config, held, ← hsplit, List.append_assoc]
    exact Config.emits_plain hwide hplain
  · have hbefore : d.ip.toNat + ((window src (d.bufs .main) pos).length + wanted) + 4 <
        2 ^ 32 + 0 := hroom hchecks
    have hafter := toNat_add_le d.ip (window src (d.bufs .main) pos).length
    change d'.ip.toNat + wanted + 4 < 2 ^ 32 + 0
    rw [hip]
    omega
  · rw [cost, cost, hrange, hdest, List.length_append]
    omega

theorem Ready.went_marker (h : d.Ready src destLim .top) (d' : Bcj2Decoder)
    (hwide : ¬ d.range < topValue) {b : UInt8} {bit : Bool} {c : Core} {phase' : Phase}
    (hlt : d.bufs .main < d.lims .main) (hb : src[d.bufs .main]? = some b)
    (hmarked : Marked (getElem d.temp 3 last_lt) b) (hbit : d.core.bit b = (bit, c))
    (hphase : phase' = if bit then .address else .top)
    (hbufs : d'.bufs = Function.update d.bufs .main (d.bufs .main + 1)) (hlims : d'.lims = d.lims)
    (hcore : d'.core = c.pass b) (hdest : d'.dest = d.dest ++ [b])
    (hroom : d'.dest.length ≤ destLim) :
    Went checks src destLim .top d [b] phase' d' ∧
      d'.cost destLim phase' < d.cost destLim .top := by
  have hrange : d'.range = c.range := congrArg Core.range hcore
  have hcip : c.ip = d.ip := by
    have := congrArg (fun pair => pair.2.ip) hbit
    dsimp only at this
    rw [← this, Core.bit]
    split <;> rfl
  have hip : d'.ip = d.ip + 1 := by
    rw [← hcip]
    exact congrArg Core.ip hcore
  have hlow : 2 ^ 16 ≤ c.range.toNat := by
    have := Core.bit_range hwide b (c := d.core)
    rwa [hbit] at this
  have hlength : d'.dest.length = d.dest.length + 1 := by
    rw [hdest, List.length_append, List.length_singleton]
  have hcost : d'.cost destLim phase' < d.cost destLim .top := by
    have hbefore := stops_top_pos d.range
    have hafter : Phase.stops d'.range phase' ≤ 2 := by
      rw [hphase]
      cases bit with
      | false => exact stops_top_le _
      | true => exact Nat.le_succ 1
    rw [cost, cost, hlength]
    omega
  have hwhole : Bcj2Stream.main.is32bit = true → 4 ∣ d.lims .main - (d.bufs .main + 1) := by
    intro hmain
    cases hmain
  obtain ⟨hfits, hforward⟩ := h.fits.advance d' (Nat.le_succ _) hlt hwhole hbufs hlims
  refine ⟨⟨⟨hfits, ?_, hroom⟩, hlims, hforward, hdest, fun rest => ?_,
    fun wanted hroom hchecks => ?_, Nat.le_of_lt hcost⟩, hcost⟩
  · rw [hphase, hrange]
    cases bit with
    | false => exact hlow
    | true => exact hlow
  · have hheld : d.held src .main = b :: window src (d.bufs .main + 1) (d.lims .main) :=
      window_cons hlt hb
    rw [config_main hbufs hlims, hcore, hphase, config, hheld]
    cases bit with
    | false => exact Config.emits_bit_false hwide hmarked hbit
    | true => exact Config.emits_bit_true hwide hmarked hbit
  · have hbefore : d.ip.toNat + (1 + wanted) + 4 < 2 ^ 32 + 0 := hroom hchecks
    have hafter : (d.ip + 1).toNat ≤ d.ip.toNat + 1 := toNat_add_le d.ip 1
    rw [hip]
    omega

theorem decodeBit_eq {c : Core} (hrange : c.range = d.range) (hcode : c.code = d.code)
    (hprobs : c.probs = d.probs) (b : UInt8) :
    decodeBit b c.prev d = ((c.bit b).1, { d with
      range := (c.bit b).2.range
      code := (c.bit b).2.code
      probs := (c.bit b).2.probs }) := by
  obtain ⟨ip, prev, range, code, probs⟩ := c
  dsimp only at hrange hcode hprobs
  subst hrange hcode hprobs
  unfold decodeBit Core.bit Core.bound
  dsimp only
  by_cases hbit : d.code < (d.range >>> 11) * UInt32.ofNat d.probs[probIndex b prev].val
  · simp only [hbit, if_true]
  · simp only [hbit, if_false]

theorem bit_ip (c : Core) (b : UInt8) : (c.bit b).2.ip = c.ip := by
  unfold Core.bit
  dsimp only
  split <;> rfl

theorem Outcome.after {phase phase₁ : Phase} {d₁ : Bcj2Decoder} {out : List UInt8}
    {result : Next × Bcj2Decoder} (hwent : Went checks src destLim phase d out phase₁ d₁)
    (hless : d₁.cost destLim phase₁ < d.cost destLim phase)
    (h : d₁.Outcome checks src destLim phase₁ result) :
    d.Outcome checks src destLim phase result := by
  cases h with
  | goOn out' hout hwent' htop hcost =>
      refine .goOn _ ?_ (hwent.trans hwent') htop (Nat.lt_trans hcost hless)
      exact List.length_append ▸ Nat.lt_add_left _ hout
  | stop out' hwent' hphase hstopped hcost =>
      exact .stop _ (hwent.trans hwent') hphase hstopped
        (fun _ _ => Nat.lt_of_le_of_lt hwent'.cost hless)
  | starve out' hwent' hstate hempty hcost =>
      exact .starve _ (hwent.trans hwent') hstate hempty
        (fun _ => Nat.lt_of_le_of_lt hwent'.cost hless)
  | tear out' hwent' hstate hfull => exact .tear _ (hwent.trans hwent') hstate hfull

theorem waits_top (hwide : ¬ d.range < topValue) : d.waits .top = .main := if_neg hwide

theorem Stopped.ranOut_main (hwide : ¬ d.range < topValue) (hstate : d.state = .stream .main)
    (hempty : d.bufs .main = d.lims .main) : d.Stopped destLim .top := by
  refine .ranOut ?_ ?_ nofun
  · rw [waits_top hwide]
    exact hstate
  · rw [waits_top hwide]
    exact hempty

theorem Stopped.ranOut_rc (hsmall : d.range < topValue) (hstate : d.state = .stream .rc)
    (hempty : d.bufs .rc = d.lims .rc) : d.Stopped destLim .top := by
  have hwaits : d.waits .top = .rc := if_pos hsmall
  refine .ranOut ?_ ?_ nofun
  · rw [hwaits]
    exact hstate
  · rw [hwaits]
    exact hempty

theorem scanFrom_scanned {num : Nat} (hnum : 0 < num) (hlim : d.bufs .main + num ≤ src.length)
    (hroom : d.dest.length + num ≤ destLim) :
    ∃ pos dest, d.scanFrom src num destLim = .ok (pos, dest) ∧
      Scanned src (d.bufs .main + num) (getElem d.temp 3 last_lt) (d.bufs .main) d.dest pos
        dest := by
  have hfirst : src[d.bufs .main]? = some src[d.bufs .main] := List.getElem?_eq_getElem (by omega)
  generalize src[d.bufs .main] = first at hfirst
  unfold scanFrom
  dsimp only
  rw [Result.bind_of_ok (Result.index_eq_ok.mpr hfirst)]
  by_cases hjump : d.temp[3] = 0x0F ∧ first &&& 0xF0 = 0x80
  · rw [if_pos hjump, Result.bind_of_ok (putByte_of_lt (by omega) first)]
    exact ⟨_, _, rfl, .marker (by omega) hfirst (Or.inr hjump)⟩
  · rw [if_neg hjump]
    apply scan_scanned hlim (by omega) (by omega) (by omega)
    intro b hb
    rw [hfirst] at hb
    cases hb
    exact hjump

theorem prevByte_eq {pos : Nat} (hle : d.bufs .main ≤ pos) (hlim : pos ≤ src.length) :
    d.prevByte src pos =
      .ok ((window src (d.bufs .main) pos).getLast?.getD (getElem d.temp 3 last_lt)) := by
  unfold prevByte
  by_cases hstart : pos = d.bufs .main
  · rw [if_pos hstart, hstart, window_self]
    rfl
  · rw [if_neg hstart, window_getLast? (by omega) hlim,
      List.getElem?_eq_getElem (by omega : pos - 1 < src.length)]
    exact Result.index_of_lt (by omega)

theorem Ready.copied_all (h : d.Ready src destLim .top) (hwide : ¬ d.range < topValue)
    {pos : Nat} {last : UInt8} (hlt : d.bufs .main < pos) (hlim : pos ≤ d.lims .main)
    (hplain : Unmarked (getElem d.temp 3 last_lt) (window src (d.bufs .main) pos))
    (hlast : src[pos - 1]? = some last)
    (hroom : (d.dest ++ window src (d.bufs .main) pos).length ≤ destLim)
    (hfull : pos ≠ d.lims .main → (d.dest ++ window src (d.bufs .main) pos).length = destLim) :
    d.Outcome checks src destLim .top (.ret true, { d with
      temp := d.temp.set 3 last last_lt
      bufs := Function.update d.bufs .main pos
      ip := d.ip + UInt32.ofNat (pos - d.bufs .main)
      dest := d.dest ++ window src (d.bufs .main) pos
      state := if pos = d.lims .main then .stream .main else .orig }) := by
  have hlow : 2 ^ 16 ≤ d.range.toNat := h.range
  have hinside : pos ≤ src.length := Nat.le_trans hlim (h.fits.inside .main)
  have hlength : (window src (d.bufs .main) pos).length = pos - d.bufs .main :=
    window_length hinside
  have hcore : (⟨d.ip + UInt32.ofNat (pos - d.bufs .main), (d.temp.set 3 last)[3], d.range, d.code,
      d.probs⟩ : Core) = (window src (d.bufs .main) pos).foldl Core.pass d.core := by
    rw [foldl_pass, hlength, window_getLast? hlt hinside, hlast, Vector.getElem_set_self]
    rfl
  have htop : (if pos = d.lims .main then Bcj2State.stream .main else .orig).isTop = true := by
    split <;> rfl
  have hwent := @Ready.went_plain checks src destLim d h { d with
    temp := d.temp.set 3 last
    bufs := Function.update d.bufs .main pos
    ip := d.ip + UInt32.ofNat (pos - d.bufs .main)
    dest := d.dest ++ window src (d.bufs .main) pos
    state := if pos = d.lims .main then .stream .main else .orig } hwide pos (Nat.le_of_lt hlt)
    hlim hplain rfl rfl hcore rfl hroom
  refine .stop _ hwent (phase_of_isTop hlow htop) ?_ (fun _ _ => ?_)
  · by_cases hend : pos = d.lims .main
    · exact .ranOut_main hwide (if_pos hend) hend
    · exact .full (if_neg hend) hwide (hfull hend)
  · rw [cost, cost, hwent.dest, List.length_append, hlength]
    rw [List.length_append, hlength] at hroom
    change 2 * (destLim - (d.dest.length + (pos - d.bufs .main))) + Phase.stops d.range .top <
      2 * (destLim - d.dest.length) + Phase.stops d.range .top
    omega

theorem Ready.copied_marker (h : d.Ready src destLim .top) (htop : d.state.isTop = true)
    (hwide : ¬ d.range < topValue) {pos : Nat} {b : UInt8} (hle : d.bufs .main ≤ pos)
    (hlt : pos < d.lims .main)
    (hplain : Unmarked (getElem d.temp 3 last_lt) (window src (d.bufs .main) pos))
    (hb : src[pos]? = some b)
    (hmarked : Marked ((window src (d.bufs .main) pos).getLast?.getD (getElem d.temp 3 last_lt)) b)
    (hroom : (d.dest ++ (window src (d.bufs .main) pos ++ [b])).length ≤ destLim)
    (hip : d.IpRoom checks wanted .top) (hwanted : destLim ≤ d.dest.length + wanted) :
    ∃ result,
      (let (bit, d) := decodeBit b
          ((window src (d.bufs .main) pos).getLast?.getD (getElem d.temp 3 last_lt))
          { d with
            temp := d.temp.set 3 b last_lt
            bufs := Function.update d.bufs .main (pos + 1)
            ip := d.ip + UInt32.ofNat (pos - d.bufs .main + 1)
            dest := d.dest ++ (window src (d.bufs .main) pos ++ [b]) }
        if bit then d.readAddress checks src destLim else pure (.goOn, d)) = .ok result ∧
      d.Outcome checks src destLim .top result := by
  have hlow : 2 ^ 16 ≤ d.range.toNat := h.range
  have hinside : pos ≤ src.length := Nat.le_trans (Nat.le_of_lt hlt) (h.fits.inside .main)
  have hlength : (window src (d.bufs .main) pos).length = pos - d.bufs .main :=
    window_length hinside
  generalize hprev : (window src (d.bufs .main) pos).getLast?.getD d.temp[3] = prev at hmarked ⊢
  have hroom' := hroom
  rw [List.length_append, List.length_append, List.length_singleton, hlength] at hroom'
  -- The decoder as it would be before the marker.
  let d₁ : Bcj2Decoder := { d with
    temp := d.temp.set 3 prev
    bufs := Function.update d.bufs .main pos
    ip := d.ip + UInt32.ofNat (pos - d.bufs .main)
    dest := d.dest ++ window src (d.bufs .main) pos }
  have hcore₁ : d₁.core = ⟨d.ip + UInt32.ofNat (pos - d.bufs .main), prev, d.range, d.code,
      d.probs⟩ := by
    rw [core, Vector.getElem_set_self]
  have hpass : d₁.core = (window src (d.bufs .main) pos).foldl Core.pass d.core := by
    rw [hcore₁, foldl_pass, hlength, ← hprev]
    rfl
  have hroom₁ : d₁.dest.length ≤ destLim := by
    rw [List.length_append, hlength]
    omega
  have hwent₁ : Went checks src destLim .top d (window src (d.bufs .main) pos) .top d₁ :=
    h.went_plain d₁ hwide hle (Nat.le_of_lt hlt) hplain rfl rfl hpass rfl hroom₁
  obtain ⟨bit, c, hbit⟩ : ∃ bit c, d₁.core.bit b = (bit, c) := ⟨_, _, rfl⟩
  let d₂ : Bcj2Decoder := { d with
    temp := d.temp.set 3 b
    bufs := Function.update d.bufs .main (pos + 1)
    ip := d.ip + UInt32.ofNat (pos - d.bufs .main + 1)
    dest := d.dest ++ (window src (d.bufs .main) pos ++ [b])
    range := c.range
    code := c.code
    probs := c.probs }
  have hcip : c.ip = d.ip + UInt32.ofNat (pos - d.bufs .main) := by
    have := bit_ip d₁.core b
    rwa [hbit] at this
  have hip₂ : d.ip + UInt32.ofNat (pos - d.bufs .main + 1) = c.ip + 1 := by
    rw [hcip, UInt32.ofNat_add, UInt32.add_assoc]
    rfl
  have hcore₂ : d₂.core = c.pass b := by
    rw [core, Vector.getElem_set_self, Core.pass, ← hip₂]
  have hwent₂ : Went checks src destLim .top d₁ [b] (if bit then .address else .top) d₂ ∧
      d₂.cost destLim (if bit then .address else .top) < d₁.cost destLim .top :=
    hwent₁.ready.went_marker d₂ hwide hlt hb (by rwa [Vector.getElem_set_self]) hbit rfl
      (Function.update_idem _ _ _).symm rfl hcore₂ (List.append_assoc _ _ _).symm hroom
  have hdecode := decodeBit_eq (c := d₁.core) (d := { d with
    temp := d.temp.set 3 b
    bufs := Function.update d.bufs .main (pos + 1)
    ip := d.ip + UInt32.ofNat (pos - d.bufs .main + 1)
    dest := d.dest ++ (window src (d.bufs .main) pos ++ [b]) }) rfl rfl rfl b
  rw [hbit, show d₁.core.prev = prev by rw [hcore₁]] at hdecode
  rw [hdecode]
  have hwent := hwent₁.trans hwent₂.1
  have hless := Nat.lt_of_lt_of_le hwent₂.2 hwent₁.cost
  cases bit with
  | false => exact ⟨_, rfl, .goOn _ (List.length_append ▸ Nat.succ_pos _) hwent htop hless⟩
  | true =>
      have hip₃ : d₂.IpRoom checks (wanted - (pos - d.bufs .main + 1)) .address := by
        apply hwent.ip
        rw [List.length_append, hlength, List.length_singleton, Nat.add_sub_cancel' (by omega)]
        exact hip
      obtain ⟨result, hread, houtcome⟩ := hwent.ready.readAddress htop hip₃
      exact ⟨result, hread, houtcome.after hwent hless⟩

theorem Ready.copyMain (h : d.Ready src destLim .top) (htop : d.state.isTop = true)
    (hwide : ¬ d.range < topValue) (hip : d.IpRoom checks wanted .top)
    (hwanted : destLim ≤ d.dest.length + wanted) :
    ∃ result, d.copyMain checks src destLim = .ok result ∧
      d.Outcome checks src destLim .top result := by
  have hlow : 2 ^ 16 ≤ d.range.toNat := h.range
  have hroom := h.room
  have hle := h.fits.le .main
  have hinside := h.fits.inside .main
  unfold Bcj2Decoder.copyMain
  dsimp only
  rw [Result.bind_of_ok (checkedSub_of_le hle)]
  by_cases hnone : d.lims .main - d.bufs .main = 0
  · rw [if_pos hnone]
    have hempty : d.bufs .main = d.lims .main := by omega
    refine ⟨_, rfl, .stop [] (h.went_state _) (phase_of_isTop hlow rfl)
      (.ranOut_main hwide rfl hempty) (fun hne => ?_)⟩
    rw [waits_top hwide] at hne
    exact absurd hempty hne
  · rw [if_neg hnone, Result.bind_of_ok (checkedSub_of_le hroom)]
    by_cases hfull : min (d.lims .main - d.bufs .main) (destLim - d.dest.length) = 0
    · rw [if_pos hfull]
      have hlength : d.dest.length = destLim := by omega
      exact ⟨_, rfl, .stop [] (h.went_state _) (phase_of_isTop hlow rfl)
        (.full rfl hwide hlength) (fun _ ⟨_, hran⟩ => nomatch hran)⟩
    · rw [if_neg hfull]
      generalize hnum : min (d.lims .main - d.bufs .main) (destLim - d.dest.length) = num at hfull
      have hlim : d.bufs .main + num ≤ d.lims .main := by omega
      have hfits : d.dest.length + num ≤ destLim := by omega
      obtain ⟨pos, dest, hscan, hscanned⟩ :=
        scanFrom_scanned (Nat.pos_of_ne_zero hfull) (Nat.le_trans hlim hinside) hfits
      have hpos := hscanned.le
      rw [Result.bind_of_ok hscan]
      dsimp only
      have hadd : ∀ n ≤ num, addIp checks d.ip n = .ok (d.ip + UInt32.ofNat n) := by
        intro n hn
        apply addIp_of_room
        intro hchecks
        have : d.ip.toNat + wanted + 4 < 2 ^ 32 + 0 := hip hchecks
        omega
      have hlength : ∀ q ≤ src.length, (window src (d.bufs .main) q).length = q - d.bufs .main :=
        fun q hq => window_length hq
      obtain ⟨hend, hdest⟩ | ⟨hlt, b, hb, hmarked, hdest⟩ := hscanned.stop
      · have hlast : src[pos - 1]? = some src[pos - 1] := List.getElem?_eq_getElem (by omega)
        generalize src[pos - 1] = last at hlast
        rw [if_pos hend, Result.bind_of_ok (Result.index_eq_ok.mpr hlast),
          Result.bind_of_ok (hadd _ (by omega)), hdest]
        have hcopied : (d.dest ++ window src (d.bufs .main) pos).length = d.dest.length + num := by
          rw [List.length_append, hlength pos (by omega)]
          omega
        exact ⟨_, rfl, h.copied_all hwide (by omega) (by omega) hscanned.unmarked hlast
          (by omega) (fun hne => by omega)⟩
      · have hprev := prevByte_eq hpos (by omega : pos ≤ src.length)
        rw [if_neg (Nat.ne_of_lt hlt), Result.bind_of_ok (Result.index_eq_ok.mpr hb),
          Result.bind_of_ok hprev, Result.bind_of_ok (hadd _ (by omega)), hdest]
        apply h.copied_marker htop hwide hpos (by omega) hscanned.unmarked hb hmarked ?_ hip hwanted
        rw [List.length_append, List.length_append, hlength pos (by omega), List.length_singleton]
        omega

theorem Outcome.of_state {phase : Phase} {state : Bcj2State} {result : Next × Bcj2Decoder}
    (h : d.Ready src destLim phase)
    (houtcome : Outcome checks src destLim phase { d with state } result) :
    d.Outcome checks src destLim phase result := by
  have hwent : Went checks src destLim phase d [] phase { d with state } := h.went_state state
  cases houtcome with
  | goOn out hout hwent' htop hcost => exact .goOn out hout (hwent.trans hwent') htop hcost
  | stop out hwent' hphase hstopped hcost =>
      exact .stop out (hwent.trans hwent') hphase hstopped hcost
  | starve out hwent' hstate hempty hcost =>
      exact .starve out (hwent.trans hwent') hstate hempty hcost
  | tear out hwent' hstate hfull => exact .tear out (hwent.trans hwent') hstate hfull

theorem Ready.round_address (h : d.Ready src destLim .address)
    (hstate : d.state = .stream .call ∨ d.state = .stream .jump)
    (hip : d.IpRoom checks wanted .address) :
    ∃ result, d.round checks src destLim = .ok result ∧
      d.Outcome checks src destLim .address result := by
  rw [Bcj2Decoder.round, if_pos hstate]
  have hwent : Went checks src destLim .address d [] .address { d with state := .ok } :=
    h.went_state .ok
  obtain ⟨result, hread, houtcome⟩ := hwent.ready.readAddress rfl hip
  exact ⟨result, hread, houtcome.of_state h⟩

theorem Ready.round_top (h : d.Ready src destLim .top) (htop : d.state.isTop = true)
    (hip : d.IpRoom checks wanted .top) (hwanted : destLim ≤ d.dest.length + wanted) :
    ∃ result, d.round checks src destLim = .ok result ∧
      d.Outcome checks src destLim .top result := by
  have hlow : 2 ^ 16 ≤ d.range.toNat := h.range
  have hstate : ¬ (d.state = .stream .call ∨ d.state = .stream .jump) := by
    rintro (hcall | hjump)
    · rw [hcall] at htop
      cases htop
    · rw [hjump] at htop
      cases htop
  rw [Bcj2Decoder.round, if_neg hstate]
  by_cases hsmall : d.range < topValue
  · obtain ⟨hnone, -, hempty⟩ | ⟨d', hsome, hwent, hwide, hstate', -, -, hless⟩ :=
      @Ready.normalize checks _ _ _ _ h nofun
    · rw [Result.bind_of_ok hnone]
      refine ⟨_, rfl, .stop [] (h.went_state _) (phase_of_isTop hlow rfl)
        (.ranOut_rc hsmall rfl hempty) (fun hne => ?_)⟩
      rw [show d.waits .top = .rc from if_pos hsmall] at hne
      exact absurd hempty hne
    · rw [Result.bind_of_ok hsome]
      have hip' : d'.IpRoom checks wanted .top := hwent.ip wanted (by
        rw [List.length_nil, Nat.zero_add]
        exact hip)
      obtain ⟨result, hcopy, houtcome⟩ := hwent.ready.copyMain (hstate' ▸ htop) hwide hip' (by
        rw [hwent.dest, List.append_nil]
        exact hwanted)
      exact ⟨result, hcopy, houtcome.after hwent (hless hsmall rfl)⟩
  · have hsome : d.normalize src = .ok (some d) := if_neg hsmall
    rw [Result.bind_of_ok hsome]
    exact h.copyMain htop hsmall hip hwanted

theorem Ready.widened {phase : Phase} (h : d.Ready src destLim phase)
    (hphase : phase ≠ .starting) :
    ∃ d', (d.normalize src >>= fun normalized => pure (true, normalized.getD d)) =
        .ok (true, d') ∧
      Went checks src destLim phase d [] phase d' ∧ d'.state = d.state ∧ d'.temp = d.temp ∧
      ∀ s, s ≠ .rc → d'.bufs s = d.bufs s := by
  obtain ⟨hnone, -, -⟩ | ⟨d', hsome, hwent, -, hstate, htemp, hbufs, -⟩ :=
    @Ready.normalize checks _ _ _ _ h hphase
  · exact ⟨d, Result.bind_of_ok hnone, h.went_refl, rfl, rfl, fun _ _ => rfl⟩
  · exact ⟨d', Result.bind_of_ok hsome, hwent, hstate, htemp, hbufs⟩

structure Returned (checks : Bool) (src : List UInt8) (destLim : Nat) (phase : Phase)
    (d : Bcj2Decoder) (out : List UInt8) (d' : Bcj2Decoder) : Prop where
  went : Went checks src destLim phase d out d'.phase d'
  stopped : d'.Stopped destLim d'.phase
  cost : d.bufs (d.waits phase) ≠ d.lims (d.waits phase) → (∃ s, d'.state = .stream s) →
    d'.cost destLim d'.phase < d.cost destLim phase

theorem Returned.after {phase phase₁ : Phase} {d₁ d' : Bcj2Decoder} {out out' : List UInt8}
    (hwent : Went checks src destLim phase d out phase₁ d₁)
    (hless : d.bufs (d.waits phase) ≠ d.lims (d.waits phase) → (∃ s, d'.state = .stream s) →
      d₁.cost destLim phase₁ < d.cost destLim phase)
    (h : Returned checks src destLim phase₁ d₁ out' d') :
    Returned checks src destLim phase d (out ++ out') d' where
  went := hwent.trans h.went
  stopped := h.stopped
  cost hne hlt := Nat.lt_of_le_of_lt h.went.cost (hless hne hlt)

theorem cost_pos {phase : Phase} (h : phase.Allows d.range) : 0 < d.cost destLim phase := by
  apply Nat.add_pos_right
  cases phase with
  | starting =>
      change d.range.toNat ≤ 5 at h
      change 0 < 7 - d.range.toNat
      omega
  | top => exact stops_top_pos d.range
  | address | writing bytes => exact Nat.one_pos

theorem addressStream_ne_rc (b : UInt8) : addressStream b ≠ .rc := by
  unfold addressStream
  split <;> decide

theorem Went.starved {phase : Phase} {out : List UInt8} {d' : Bcj2Decoder}
    (hwent : Went checks src destLim phase d out .address d')
    (hstate : d'.state = .stream (addressStream (getElem d'.temp 3 last_lt)))
    (hempty : d'.bufs (addressStream (getElem d'.temp 3 last_lt)) =
      d'.lims (addressStream (getElem d'.temp 3 last_lt)))
    (hcost : d.bufs (d.waits phase) ≠ d.lims (d.waits phase) →
      d'.cost destLim .address < d.cost destLim phase) :
    ∃ d'', (d'.normalize src >>= fun normalized => pure (true, normalized.getD d')) =
        .ok (true, d'') ∧ Returned checks src destLim phase d out d'' := by
  obtain ⟨d'', hwidened, hwent', hstate', htemp, hbufs⟩ :=
    @Ready.widened checks _ _ _ _ hwent.ready nofun
  have hphase : d''.phase = .address := by
    apply phase_of_stream hwent'.ready.range (hstate'.trans hstate)
    exact addressStream_is32bit _
  have hwaits : d''.waits .address = addressStream d'.temp[3] := by
    rw [waits, htemp]
  have hall := hwent.trans hwent'
  rw [List.append_nil, ← hphase] at hall
  refine ⟨d'', hwidened, hall, ?_, fun hne _ => ?_⟩
  · rw [hphase]
    refine .ranOut ?_ ?_ nofun
    · rw [hwaits, hstate', hstate]
    · rw [hwaits, hbufs _ (addressStream_ne_rc _), hwent'.lims, hempty]
  · rw [hphase]
    exact Nat.lt_of_le_of_lt hwent'.cost (hcost hne)

theorem Went.torn {phase : Phase} {out : List UInt8} {k : Fin 4} {d' : Bcj2Decoder}
    (hwent : Went checks src destLim phase d out (.writing (d'.temp.toList.drop k)) d')
    (hstate : d'.state = .orig03 k) (hfull : d'.dest.length = destLim) :
    ∃ d'', (d'.normalize src >>= fun normalized => pure (true, normalized.getD d')) =
        .ok (true, d'') ∧ Returned checks src destLim phase d out d'' := by
  obtain ⟨d'', hwidened, hwent', hstate', htemp, -⟩ :=
    @Ready.widened checks _ _ _ _ hwent.ready nofun
  have hphase : d''.phase = .writing (d'.temp.toList.drop k) := by
    rw [phase_of_orig03 hwent'.ready.range (hstate'.trans hstate), htemp]
  have hfull' : d''.dest.length = destLim := by
    rw [hwent'.dest, List.append_nil, hfull]
  have hall := hwent.trans hwent'
  rw [List.append_nil, ← hphase] at hall
  refine ⟨d'', hwidened, hall, .within (hstate'.trans hstate) hfull' (hphase ▸ nofun), ?_⟩
  rintro - ⟨s, hran⟩
  rw [hstate', hstate] at hran
  cases hran

theorem Ready.loop {rounds : Nat} (h : d.Ready src destLim d.phase)
    (hloop : d.phase = .top ∧ d.state.isTop = true ∨
      d.phase = .address ∧ (d.state = .stream .call ∨ d.state = .stream .jump))
    (hip : d.IpRoom checks wanted d.phase) (hwanted : destLim ≤ d.dest.length + wanted)
    (hrounds : destLim - d.dest.length < rounds) :
    ∃ out d', d.loop checks src destLim rounds = .ok (true, d') ∧
      d.Returned checks src destLim d.phase out d' := by
  induction rounds generalizing d wanted with
  | zero => exact absurd hrounds (Nat.not_lt_zero _)
  | succ rounds ih =>
      obtain ⟨result, hround, houtcome⟩ : ∃ result, d.round checks src destLim = .ok result ∧
          d.Outcome checks src destLim d.phase result := by
        obtain ⟨hphase, htop⟩ | ⟨hphase, hstate⟩ := hloop
        · rw [hphase] at h hip ⊢
          exact h.round_top htop hip hwanted
        · rw [hphase] at h hip ⊢
          exact h.round_address hstate hip
      rw [Bcj2Decoder.loop, Result.bind_of_ok hround]
      cases houtcome with
      | goOn out hout hwent htop hcost =>
          rename_i d'
          have hphase : d'.phase = .top := phase_of_isTop hwent.ready.range htop
          have hlength : d'.dest.length = d.dest.length + out.length := by
            rw [hwent.dest, List.length_append]
          have hroom := hwent.ready.room
          have hready := hwent.ready
          have hip' : d'.IpRoom checks (wanted - out.length) .top := by
            apply hwent.ip
            rw [Nat.add_sub_cancel' (by omega)]
            exact hip
          rw [← hphase] at hwent hready hcost hip'
          obtain ⟨out', d'', hrest, hreturned⟩ :=
            ih hready (Or.inl ⟨hphase, htop⟩) hip' (by omega) (by omega)
          exact ⟨_, d'', hrest, hreturned.after hwent (fun _ _ => hcost)⟩
      | stop out hwent hphase hstopped hcost =>
          rw [← hphase] at hwent hstopped hcost
          exact ⟨out, _, rfl, hwent, hstopped, hcost⟩
      | starve out hwent hstate hempty hcost =>
          obtain ⟨d'', hwidened, hreturned⟩ := hwent.starved hstate hempty hcost
          exact ⟨out, d'', hwidened, hreturned⟩
      | tear out hwent hstate hfull =>
          obtain ⟨d'', hwidened, hreturned⟩ := hwent.torn hstate hfull
          exact ⟨out, d'', hwidened, hreturned⟩

inductive Started (checks : Bool) (src : List UInt8) (destLim : Nat) (d : Bcj2Decoder) :
    Next × Bcj2Decoder → Prop where
  | goOn {d' : Bcj2Decoder} (hwent : Went checks src destLim .starting d [] .starting d')
      (hrange : d'.range = 5) (hstate : d'.state = d.state) :
      Started checks src destLim d (.goOn, d')
  | refuse {d' : Bcj2Decoder} (hwent : Went checks src destLim .starting d [] .starting d')
      (hrefused : d'.range = 1 ∧ d'.code ≠ 0) :
      Started checks src destLim d (.ret false, d')
  | ranOut {d' : Bcj2Decoder} (hwent : Went checks src destLim .starting d [] .starting d')
      (hstate : d'.state = .stream .rc) (hempty : d'.bufs .rc = d'.lims .rc)
      (hgood : d'.range ≠ 5 ∧ ¬ (d'.range = 1 ∧ d'.code ≠ 0))
      (hcost : d.bufs .rc ≠ d.lims .rc →
        d'.cost destLim .starting < d.cost destLim .starting) :
      Started checks src destLim d (.ret true, d')

theorem Started.after {d₁ : Bcj2Decoder} {result : Next × Bcj2Decoder}
    (hwent : Went checks src destLim .starting d [] .starting d₁) (hstate : d₁.state = d.state)
    (hless : d₁.cost destLim .starting < d.cost destLim .starting)
    (h : Started checks src destLim d₁ result) : Started checks src destLim d result := by
  cases h with
  | goOn hwent' hrange hstate' => exact .goOn (hwent.trans hwent') hrange (hstate'.trans hstate)
  | refuse hwent' hrefused => exact .refuse (hwent.trans hwent') hrefused
  | ranOut hwent' hstate' hempty hgood hcost =>
      exact .ranOut (hwent.trans hwent') hstate' hempty hgood
        (fun _ => Nat.lt_of_le_of_lt hwent'.cost hless)

theorem Ready.went_start (h : d.Ready src destLim .starting) (hrange : d.range ≠ 5)
    (hgood : ¬ (d.range = 1 ∧ d.code ≠ 0)) {b : UInt8} (hne : d.bufs .rc ≠ d.lims .rc)
    (hheld : d.held src .rc = b :: window src (d.bufs .rc + 1) (d.lims .rc)) (d' : Bcj2Decoder)
    (hbufs : d'.bufs = Function.update d.bufs .rc (d.bufs .rc + 1)) (hlims : d'.lims = d.lims)
    (hcore : d'.core = { d.core with range := d.range + 1, code := d.core.nextCode b })
    (hdest : d'.dest = d.dest) :
    Went checks src destLim .starting d [] .starting d' ∧ d'.range = d.range + 1 ∧
      d'.range.toNat = d.range.toNat + 1 ∧
      d'.cost destLim .starting < d.cost destLim .starting := by
  have hsmall : d.range.toNat ≤ 5 := h.range
  have hlt : d.range.toNat < 5 := by
    apply Nat.lt_of_le_of_ne hsmall
    intro hfive
    exact hrange (UInt32.toNat_inj.mp hfive)
  have hrange' : d'.range = d.range + 1 := congrArg Core.range hcore
  have hip : d'.ip = d.ip := congrArg Core.ip hcore
  have hnext : d'.range.toNat = d.range.toNat + 1 := by
    rw [hrange', UInt32.toNat_add, show (1 : UInt32).toNat = 1 from rfl]
    exact Nat.mod_eq_of_lt (by omega)
  have hcost : d'.cost destLim .starting < d.cost destLim .starting := by
    rw [cost, cost, Phase.stops, Phase.stops, hnext, hdest]
    omega
  have hrc : d.bufs .rc < d.lims .rc := Nat.lt_of_le_of_ne (h.fits.le .rc) hne
  obtain ⟨hfits, hforward⟩ := h.fits.advance d' (Nat.le_succ _) hrc nofun hbufs hlims
  refine ⟨⟨⟨hfits, ?_, hdest ▸ h.room⟩, hlims, hforward, ?_, fun rest => ?_,
    fun wanted hroom hchecks => ?_, Nat.le_of_lt hcost⟩, hrange', hnext, hcost⟩
  · change d'.range.toNat ≤ 5
    omega
  · rw [hdest, List.append_nil]
  · have hconfig : d'.config src rest .starting = ⟨.starting,
        { d.core with range := d.core.range + 1, code := d.core.nextCode b },
        d.held src .main ++ rest .main, (d.config src rest .starting).sides,
        window src (d.bufs .rc + 1) (d.lims .rc) ++ rest .rc⟩ := by
      unfold config held
      rw [hbufs, hlims, hcore]
      rfl
    rw [hconfig, config, hheld]
    exact Config.emits_start hrange hgood b
  · rw [List.length_nil, Nat.zero_add] at hroom
    rw [hip]
    exact hroom hchecks

theorem Ready.startLoop {rounds : Nat} (h : d.Ready src destLim .starting)
    (hrounds : 5 - d.range.toNat < rounds) :
    ∃ result, d.startLoop src rounds = .ok result ∧ Started checks src destLim d result := by
  induction rounds generalizing d with
  | zero => exact absurd hrounds (Nat.not_lt_zero _)
  | succ rounds ih =>
      rw [Bcj2Decoder.startLoop]
      by_cases hrange : d.range = 5
      · rw [if_pos hrange]
        exact ⟨_, rfl, .goOn h.went_refl hrange rfl⟩
      · rw [if_neg hrange]
        by_cases hrefused : d.range = 1 ∧ d.code ≠ 0
        · rw [if_pos hrefused]
          exact ⟨_, rfl, .refuse h.went_refl hrefused⟩
        · rw [if_neg hrefused]
          by_cases hempty : d.bufs .rc = d.lims .rc
          · rw [if_pos hempty]
            exact ⟨_, rfl, .ranOut (h.went_state _) rfl hempty ⟨hrange, hrefused⟩
              (fun hne => absurd hempty hne)⟩
          · rw [if_neg hempty]
            obtain ⟨b, htake, hheld⟩ := h.fits.takeRc hempty
            rw [Result.bind_of_ok htake]
            obtain ⟨hwent, -, hnext, hless⟩ :=
              @Ready.went_start checks src destLim d h hrange hrefused b hempty hheld { d with
                code := d.core.nextCode b
                bufs := Function.update d.bufs .rc (d.bufs .rc + 1)
                range := d.range + 1 } rfl rfl rfl rfl
            have hfive : (d.range + 1).toNat ≤ 5 := hwent.ready.range
            have hrounds' : 5 - (d.range + 1).toNat < rounds := by
              change (d.range + 1).toNat = d.range.toNat + 1 at hnext
              omega
            obtain ⟨result, hloop, hstarted⟩ := ih hwent.ready hrounds'
            exact ⟨result, hloop, hstarted.after hwent rfl hless⟩

def Refused (src : List UInt8) (phase : Phase) (d : Bcj2Decoder) : Prop :=
  ∀ rest wanted, (d.config src rest phase).left wanted = none

theorem Went.refused {phase phase' : Phase} {d' : Bcj2Decoder}
    (hwent : Went checks src destLim phase d [] phase' d') (h : d'.Refused src phase') :
    d.Refused src phase := by
  intro rest wanted
  exact (hwent.emits rest).left_eq_none (Nat.zero_le _) (h rest _)

inductive Resumed (checks : Bool) (src : List UInt8) (destLim : Nat) (d : Bcj2Decoder) :
    Next × Bcj2Decoder → Prop where
  | goOn (out : List UInt8) {d' : Bcj2Decoder}
      (hwent : Went checks src destLim d.phase d out d'.phase d')
      (hstate : d'.phase = .top ∧ d'.state.isTop = true ∨
        d'.phase = .address ∧ (d'.state = .stream .call ∨ d'.state = .stream .jump))
      (hcost : d' = d ∨ d'.cost destLim d'.phase < d.cost destLim d.phase) :
      Resumed checks src destLim d (.goOn, d')
  | refuse {d' : Bcj2Decoder} (hwent : Went checks src destLim d.phase d [] d'.phase d')
      (hrefused : d.Refused src d.phase) :
      Resumed checks src destLim d (.ret false, d')
  | stop (out : List UInt8) {d' : Bcj2Decoder}
      (hreturned : Returned checks src destLim d.phase d out d') :
      Resumed checks src destLim d (.ret true, d')

theorem phase_starting (hrange : d.range.toNat ≤ 5) : d.phase = .starting := by
  apply if_pos
  rw [UInt32.le_iff_toNat_le]
  exact hrange

theorem Ready.went_started (h : d.Ready src destLim .starting) (hrange : d.range = 5)
    (hcode : d.code ≠ 0xFFFFFFFF) :
    Went checks src destLim .starting d [] .top { d with range := 0xFFFFFFFF } ∧
      cost destLim .top { d with range := 0xFFFFFFFF } < d.cost destLim .starting := by
  have hcost : cost destLim .top { d with range := 0xFFFFFFFF } < d.cost destLim .starting := by
    apply Nat.add_lt_add_left
    rw [hrange]
    change Phase.stops 0xFFFFFFFF .top < Phase.stops 5 .starting
    decide
  refine ⟨⟨⟨⟨h.fits.le, h.fits.inside, h.fits.whole⟩, ?_, h.room⟩, rfl, fun _ => Nat.le_refl _,
    (List.append_nil _).symm, fun rest => ?_, fun wanted hroom => ?_, Nat.le_of_lt hcost⟩, hcost⟩
  · change 2 ^ 16 ≤ (0xFFFFFFFF : UInt32).toNat
    decide
  · exact Config.emits_started hrange hcode
  · rw [List.length_nil, Nat.zero_add] at hroom
    exact hroom

theorem Ready.start (h : d.Ready src destLim .starting) :
    ∃ result, d.start src = .ok result ∧ d.Resumed checks src destLim result := by
  have hphase : d.phase = .starting := phase_starting h.range
  have hwent₀ : Went checks src destLim .starting d [] .starting { d with state := .ok } :=
    h.went_state .ok
  have hrounds : 5 - d.range.toNat < 6 := by omega
  obtain ⟨⟨next, d'⟩, hloop, hstarted⟩ := hwent₀.ready.startLoop hrounds
  rw [Bcj2Decoder.start, Result.bind_of_ok hloop]
  cases hstarted with
  | goOn hwent hrange hstate =>
      have hwent' := hwent₀.trans hwent
      dsimp only
      by_cases hcode : d'.code = 0xFFFFFFFF
      · rw [if_pos hcode]
        have hphase' : d'.phase = .starting := phase_starting hwent.ready.range
        refine ⟨_, rfl, .refuse ?_ ?_⟩
        · rw [hphase, hphase']
          exact hwent'
        · rw [hphase]
          apply hwent'.refused
          intro rest wanted
          exact Config.left_starting_refused (Or.inl ⟨hrange, hcode⟩) wanted
      · rw [if_neg hcode]
        obtain ⟨hwent'', hless⟩ := @Ready.went_started checks _ _ _ hwent.ready hrange hcode
        have htop : ({ d' with range := 0xFFFFFFFF } : Bcj2Decoder).state.isTop = true := by
          rw [hstate]
          rfl
        have hphase'' : ({ d' with range := 0xFFFFFFFF } : Bcj2Decoder).phase = .top :=
          phase_of_isTop hwent''.ready.range htop
        refine ⟨_, rfl, .goOn [] ?_ (Or.inl ⟨hphase'', htop⟩) (Or.inr ?_)⟩
        · rw [hphase, hphase'']
          exact hwent'.trans hwent''
        · rw [hphase, hphase'']
          exact Nat.lt_of_lt_of_le hless hwent'.cost
  | refuse hwent hrefused =>
      have hwent' := hwent₀.trans hwent
      have hphase' : d'.phase = .starting := phase_starting hwent.ready.range
      refine ⟨_, rfl, .refuse ?_ ?_⟩
      · rw [hphase, hphase']
        exact hwent'
      · rw [hphase]
        apply hwent'.refused
        intro rest wanted
        exact Config.left_starting_refused (Or.inr hrefused) wanted
  | ranOut hwent hstate hempty hgood hcost =>
      have hphase' : d'.phase = .starting := phase_starting hwent.ready.range
      refine ⟨_, rfl, .stop [] ⟨?_, ?_, fun hne _ => ?_⟩⟩
      · rw [hphase, hphase']
        exact hwent₀.trans hwent
      · rw [hphase']
        exact .ranOut hstate hempty (fun _ => hgood)
      · rw [hphase] at hne ⊢
        rw [hphase']
        exact Nat.lt_of_lt_of_le (hcost hne) hwent₀.cost

theorem Ready.went_byte {b : UInt8} {bytes : List UInt8}
    (h : d.Ready src destLim (.writing (b :: bytes))) (hroom : d.dest.length < destLim)
    (state : Bcj2State) (phase' : Phase) (hphase : phase' ≠ .starting)
    (hpending : phase'.pending = bytes.length) (hstops : Phase.stops d.range phase' ≤ 2)
    (hwritten : ∀ core main sides rc,
      Config.Emits ⟨.writing bytes, core, main, sides, rc⟩ [] ⟨phase', core, main, sides, rc⟩) :
    Went checks src destLim (.writing (b :: bytes)) d [b] phase'
        { d with dest := d.dest ++ [b], state } ∧
      cost destLim phase' { d with dest := d.dest ++ [b], state } <
        d.cost destLim (.writing (b :: bytes)) := by
  have hlow : 2 ^ 16 ≤ d.range.toNat := h.range
  have hlength : (d.dest ++ [b]).length = d.dest.length + 1 := List.length_append
  have hcost : cost destLim phase' { d with dest := d.dest ++ [b], state } <
      d.cost destLim (.writing (b :: bytes)) := by
    change 2 * (destLim - (d.dest ++ [b]).length) + Phase.stops d.range phase' <
      2 * (destLim - d.dest.length) + 1
    rw [hlength]
    omega
  refine ⟨⟨⟨⟨h.fits.le, h.fits.inside, h.fits.whole⟩, Phase.allows_of_low hphase hlow, ?_⟩, rfl,
    fun _ => Nat.le_refl _, rfl, fun rest => ?_, fun wanted hip hchecks => ?_,
    Nat.le_of_lt hcost⟩, hcost⟩
  · rw [hlength]
    exact hroom
  · exact (Config.emits_writing [b] bytes).trans (hwritten _ _ _ _)
  · have hbefore : d.ip.toNat + (1 + wanted) + 4 < 2 ^ 32 + (bytes.length + 1) := hip hchecks
    rw [hpending]
    change d.ip.toNat + wanted + 4 < 2 ^ 32 + bytes.length
    omega

theorem drop_temp (temp : Vector UInt8 4) (k : Fin 4) :
    temp.toList.drop k = getElem temp k k.isLt :: temp.toList.drop (k + 1) := by
  rw [List.drop_eq_getElem_cons (by rw [toList_length]; exact k.isLt)]
  rfl

theorem Resumed.after {phase₁ : Phase} {d₁ : Bcj2Decoder} {out : List UInt8}
    {result : Next × Bcj2Decoder} (hphase : d₁.phase = phase₁)
    (hwent : Went checks src destLim d.phase d out phase₁ d₁)
    (hless : d₁.cost destLim phase₁ < d.cost destLim d.phase)
    (h : d₁.Resumed checks src destLim result) (hok : result.1 ≠ .ret false) :
    d.Resumed checks src destLim result := by
  subst hphase
  cases h with
  | goOn out' hwent' hstate hcost =>
      exact .goOn _ (hwent.trans hwent') hstate (Or.inr (Nat.lt_of_le_of_lt hwent'.cost hless))
  | refuse => exact absurd rfl hok
  | stop out' hreturned => exact .stop _ (hreturned.after hwent (fun _ _ => hless))

theorem origLoop_done (hstate : ∀ k, d.state ≠ .orig03 k) (rounds : Nat) :
    d.origLoop destLim (rounds + 1) = .ok (.goOn, d) := by
  rw [origLoop]
  split
  · rename_i k hk
    exact absurd hk (hstate k)
  · rfl

theorem Ready.origLoop {rounds : Nat} {k : Fin 4} (hstate : d.state = .orig03 k)
    (h : d.Ready src destLim (.writing (d.temp.toList.drop k))) (hrounds : 4 - k.val < rounds) :
    ∃ result, d.origLoop destLim rounds = .ok result ∧ result.1 ≠ .ret false ∧
      d.Resumed checks src destLim result := by
  induction rounds generalizing d k with
  | zero => exact absurd hrounds (Nat.not_lt_zero _)
  | succ rounds ih =>
      have hphase : d.phase = .writing (d.temp.toList.drop k) := phase_of_orig03 h.range hstate
      rw [Bcj2Decoder.origLoop, hstate]
      dsimp only
      by_cases hfull : d.dest.length = destLim
      · rw [if_pos hfull]
        refine ⟨_, rfl, nofun, .stop [] ⟨?_, .within hstate hfull (hphase ▸ nofun), ?_⟩⟩
        · rw [hphase]
          exact h.went_refl
        · rintro - ⟨s, hran⟩
          rw [hstate] at hran
          cases hran
      · have hlt : d.dest.length < destLim := Nat.lt_of_le_of_ne h.room hfull
        rw [if_neg hfull, Result.bind_of_ok (putByte_of_lt hlt _)]
        rw [drop_temp] at h hphase
        by_cases hk : k.val + 1 < 4
        · have hafter : Bcj2State.afterOrig k = .orig03 ⟨k.val + 1, hk⟩ := dif_pos hk
          rw [hafter]
          obtain ⟨hwent, hless⟩ := @Ready.went_byte checks src destLim d _ _ h hlt
            (.orig03 ⟨k.val + 1, hk⟩) (.writing (d.temp.toList.drop (k + 1))) nofun rfl
            (Nat.le_succ 1) (fun _ _ _ _ => .refl _)
          have hrounds' : 4 - (k.val + 1) < rounds := by omega
          obtain ⟨result, hloop, hok, hresumed⟩ :=
            @ih { d with dest := d.dest ++ [d.temp[k]], state := .orig03 ⟨k.val + 1, hk⟩ }
              ⟨k.val + 1, hk⟩ rfl hwent.ready hrounds'
          refine ⟨result, hloop, hok, hresumed.after ?_ (hphase ▸ hwent) (hphase ▸ hless) hok⟩
          exact phase_of_orig03 hwent.ready.range rfl
        · have hafter : Bcj2State.afterOrig k = .orig := dif_neg hk
          have hlast : d.temp.toList.drop (k + 1) = [] := by
            rw [List.drop_eq_nil_iff, toList_length]
            omega
          rw [hafter]
          rw [hlast] at h hphase
          obtain ⟨hwent, hless⟩ := @Ready.went_byte checks src destLim d _ _ h hlt
            .orig .top nofun rfl (stops_top_le _) (fun _ _ _ _ => Config.emits_written)
          obtain ⟨rounds, rfl⟩ : ∃ n, rounds = n + 1 := ⟨rounds - 1, by omega⟩
          rw [origLoop_done (by rintro _ ⟨⟩)]
          have htop := phase_of_isTop hwent.ready.range rfl
          refine ⟨_, rfl, nofun, .goOn [d.temp[k]] ?_ (Or.inl ⟨htop, rfl⟩) (Or.inr ?_)⟩
          · rw [htop, hphase]
            exact hwent
          · rw [htop, hphase]
            exact hless

theorem Ready.resume (h : d.Ready src destLim d.phase) :
    ∃ result, d.resume src destLim = .ok result ∧ d.Resumed checks src destLim result := by
  unfold Bcj2Decoder.resume
  by_cases hrange : d.range ≤ 5
  · have hphase : d.phase = .starting := if_pos hrange
    rw [if_pos hrange]
    rw [hphase] at h
    exact h.start
  · rw [if_neg hrange]
    cases hstate : d.state with
    | orig03 k =>
        have hphase : d.phase = .writing (d.temp.toList.drop k) := by
          rw [phase, if_neg hrange, hstate]
        rw [hphase] at h
        have hrounds : 4 - k.val < 5 := by omega
        obtain ⟨result, hloop, -, hresumed⟩ := h.origLoop hstate hrounds
        exact ⟨result, hloop, hresumed⟩
    | stream s =>
        rw [origLoop_done (fun _ hk => nomatch hstate.symm.trans hk)]
        refine ⟨_, rfl, .goOn [] h.went_refl ?_ (Or.inl rfl)⟩
        rw [phase, if_neg hrange, hstate]
        cases s with
        | main | rc => exact Or.inl ⟨rfl, rfl⟩
        | call => exact Or.inr ⟨rfl, Or.inl rfl⟩
        | jump => exact Or.inr ⟨rfl, Or.inr rfl⟩
    | orig | ok =>
        rw [origLoop_done (fun _ hk => nomatch hstate.symm.trans hk)]
        refine ⟨_, rfl, .goOn [] h.went_refl ?_ (Or.inl rfl)⟩
        rw [phase, if_neg hrange, hstate]
        exact Or.inl ⟨rfl, rfl⟩

/-- What `decode` puts out is what the streams decode to, and it stops only where it cannot go
on.  It refuses what no bytes behind those staged can make whole. -/
theorem Ready.decode (h : d.Ready src destLim d.phase) (hip : d.IpRoom checks wanted d.phase)
    (hwanted : destLim ≤ d.dest.length + wanted) :
    (∃ d', d.decode checks src destLim = .ok (false, d') ∧
        Went checks src destLim d.phase d [] d'.phase d' ∧ d.Refused src d.phase) ∨
      ∃ out d', d.decode checks src destLim = .ok (true, d') ∧
        d.Returned checks src destLim d.phase out d' := by
  obtain ⟨⟨next, d₁⟩, hresume, hresumed⟩ := @Ready.resume checks _ _ _ h
  rw [Bcj2Decoder.decode, Result.bind_of_ok hresume]
  cases hresumed with
  | refuse hwent hrefused => exact Or.inl ⟨d₁, rfl, hwent, hrefused⟩
  | stop out hreturned => exact Or.inr ⟨out, d₁, rfl, hreturned⟩
  | goOn out hwent hstate hcost =>
      have hlength : d₁.dest.length = d.dest.length + out.length := by
        rw [hwent.dest, List.length_append]
      have hroom := hwent.ready.room
      have hip' : d₁.IpRoom checks (wanted - out.length) d₁.phase := by
        apply hwent.ip
        rw [Nat.add_sub_cancel' (by omega)]
        exact hip
      obtain ⟨out', d', hloop, hreturned⟩ :=
        hwent.ready.loop hstate hip' (by omega) (Nat.lt_succ_self _)
      refine Or.inr ⟨out ++ out', d', hloop, ?_⟩
      obtain rfl | hless := hcost
      · have hnone : out = [] := by
          apply List.eq_nil_of_length_eq_zero
          omega
        rw [hnone]
        exact hreturned
      · exact hreturned.after hwent (fun _ _ => hless)

end

end Bcj2Decoder

end Sevenz
