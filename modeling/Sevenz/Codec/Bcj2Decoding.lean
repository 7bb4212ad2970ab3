import Sevenz.Codec.Bcj2

/-!
# What BCJ2 decodes to

The decoder of four whole streams.  It knows no buffers: a configuration is what is left of the
streams and what was decoded last, and `left` is what comes of it.
-/

namespace Sevenz.Bcj2

structure Core where
  ip : UInt32 := 0
  prev : UInt8 := 0
  range : UInt32 := 0
  code : UInt32 := 0
  probs : Vector Bcj2Prob 258 := .replicate 258 .half

structure Sides where
  call : List UInt8
  jump : List UInt8

def Sides.get (sides : Sides) (b : UInt8) : List UInt8 :=
  if b = 0xE8 then sides.call else sides.jump

def Sides.set (sides : Sides) (b : UInt8) (left : List UInt8) : Sides :=
  if b = 0xE8 then { sides with call := left } else { sides with jump := left }

def Marked (prev b : UInt8) : Prop := b &&& 0xFE = 0xE8 ∨ prev = 0x0F ∧ b &&& 0xF0 = 0x80

instance (prev b : UInt8) : Decidable (Marked prev b) := inferInstanceAs (Decidable (_ ∨ _))

namespace Core

def nextCode (c : Core) (b : UInt8) : UInt32 := c.code <<< 8 ||| b.toUInt32

def settle (c : Core) (rc : List UInt8) : Option (Core × List UInt8) :=
  if c.range < topValue then
    match rc with
    | [] => none
    | b :: rc => some ({ c with range := c.range <<< 8, code := c.nextCode b }, rc)
  else some (c, rc)

def bound (c : Core) (b : UInt8) : UInt32 :=
  (c.range >>> 11) * UInt32.ofNat c.probs[probIndex b c.prev].val

def bit (c : Core) (b : UInt8) : Bool × Core :=
  let i := probIndex b c.prev
  if c.code < c.bound b then
    (false, { c with range := c.bound b, probs := c.probs.set i c.probs[i].update0 })
  else
    (true, { c with
      range := c.range - c.bound b
      code := c.code - c.bound b
      probs := c.probs.set i c.probs[i].update1 })

def pass (c : Core) (b : UInt8) : Core := { c with ip := c.ip + 1, prev := b }

def target (c : Core) (address : UInt32) : Vector UInt8 4 := leBytes32 (address - (c.ip + 4))

def jumped (c : Core) (address : UInt32) : Core :=
  { c with ip := c.ip + 4, prev := getElem (c.target address) 3 last_lt }

end Core

/-- Where a stream has run out: that is the end, unless all bytes have been put out. -/
def starved (wanted : Nat) : Option (List UInt8) := if wanted = 0 then none else some []

def Core.verdict (c : Core) : Option (List UInt8) := if c.code = 0 then some [] else none

def putWhole (go : Nat → Option (List UInt8)) (bytes : List UInt8) (wanted : Nat) :
    Option (List UInt8) :=
  if wanted < bytes.length then none else (go (wanted - bytes.length)).map (bytes ++ ·)

/-- The address after a marker.  A torn one is an error, unless all bytes have been put out. -/
def address (go : Core → Sides → Nat → Option (List UInt8)) (c : Core) (sides : Sides)
    (wanted : Nat) : Option (List UInt8) :=
  match sides.get c.prev with
  | [] => starved wanted
  | b₀ :: b₁ :: b₂ :: b₃ :: rest =>
      let value := beValue32 b₀ b₁ b₂ b₃
      putWhole (go (c.jumped value) (sides.set c.prev rest)) (c.target value).toList wanted
  | _ => if wanted = 0 then some [] else none

def top : List UInt8 → Core → Sides → List UInt8 → Nat → Option (List UInt8)
  | [], c, _, rc, wanted =>
      match c.settle rc with
      | none => starved wanted
      | some (c, _) => if wanted = 0 then c.verdict else some []
  | b :: main, c, sides, rc, wanted =>
      match c.settle rc with
      | none => starved wanted
      | some (c, rc) =>
          if wanted = 0 then c.verdict
          else if Marked c.prev b then
            match c.bit b with
            | (false, c) => (top main (c.pass b) sides rc (wanted - 1)).map (b :: ·)
            | (true, c) =>
                (address (fun c sides => top main c sides rc) (c.pass b) sides
                  (wanted - 1)).map (b :: ·)
          else (top main (c.pass b) sides rc (wanted - 1)).map (b :: ·)

def start (go : Core → List UInt8 → Option (List UInt8)) (wanted : Nat) :
    List UInt8 → Core → Option (List UInt8)
  | [], c =>
      if c.range = 5 then
        if c.code = 0xFFFFFFFF then none else go { c with range := 0xFFFFFFFF } []
      else if c.range = 1 ∧ c.code ≠ 0 then none
      else starved wanted
  | b :: rc, c =>
      if c.range = 5 then
        if c.code = 0xFFFFFFFF then none else go { c with range := 0xFFFFFFFF } (b :: rc)
      else if c.range = 1 ∧ c.code ≠ 0 then none
      else start go wanted rc { c with range := c.range + 1, code := c.nextCode b }

/-- Where a decoder stands: in the first bytes of the range coder, before a byte of the main
stream, after a marker, or within an address, of which some bytes are still to be put out. -/
inductive Phase where
  | starting
  | top
  | address
  | writing (bytes : List UInt8)

structure Config where
  phase : Phase
  core : Core
  main : List UInt8
  sides : Sides
  rc : List UInt8

def Config.left (x : Config) (wanted : Nat) : Option (List UInt8) :=
  match x.phase with
  | .starting => start (fun c rc => Bcj2.top x.main c x.sides rc wanted) wanted x.rc x.core
  | .top => Bcj2.top x.main x.core x.sides x.rc wanted
  | .address =>
      Bcj2.address (fun c sides => Bcj2.top x.main c sides x.rc) x.core x.sides wanted
  | .writing bytes => putWhole (Bcj2.top x.main x.core x.sides x.rc) bytes wanted

def decode (size : Nat) (streams : Bcj2Stream → List UInt8) : Option (List UInt8) :=
  if size = 0 then some []
  else Config.left ⟨.starting, {}, streams .main, ⟨streams .call, streams .jump⟩, streams .rc⟩ size

def Config.Emits (x : Config) (out : List UInt8) (y : Config) : Prop :=
  ∀ wanted, out.length ≤ wanted → x.left wanted = (y.left (wanted - out.length)).map (out ++ ·)

namespace Config

theorem Emits.refl (x : Config) : x.Emits [] x := by
  intro wanted _
  rw [List.length_nil, Nat.sub_zero]
  simp

theorem Emits.trans {x y z : Config} {out out' : List UInt8} (h : x.Emits out y)
    (h' : y.Emits out' z) : x.Emits (out ++ out') z := by
  intro wanted hwanted
  rw [List.length_append] at hwanted ⊢
  rw [h wanted (by omega), h' _ (by omega), Option.map_map, Nat.sub_sub]
  congr 1
  funext bytes
  exact (List.append_assoc _ _ _).symm

theorem emits_nil {x y : Config} (h : ∀ wanted, x.left wanted = y.left wanted) :
    x.Emits [] y := by
  intro wanted _
  rw [List.length_nil, Nat.sub_zero, h wanted]
  simp

theorem Emits.left_eq_none {x y : Config} {out : List UInt8} (h : x.Emits out y) {wanted : Nat}
    (hwanted : out.length ≤ wanted) (hy : y.left (wanted - out.length) = none) :
    x.left wanted = none := by
  rw [h wanted hwanted, hy, Option.map_none]

end Config

theorem topValue_toNat : topValue.toNat = 2 ^ 24 := by decide

namespace Core

theorem settle_of_wide {c : Core} (h : ¬ c.range < topValue) (rc : List UInt8) :
    c.settle rc = some (c, rc) := if_neg h

theorem settle_of_small {c : Core} (h : c.range < topValue) (b : UInt8) (rc : List UInt8) :
    c.settle (b :: rc) = some ({ c with range := c.range <<< 8, code := c.nextCode b }, rc) :=
  if_pos h

theorem settle_nil {c : Core} (h : c.range < topValue) : c.settle [] = none := if_pos h

theorem settle_cases {c c' : Core} {rc rc' : List UInt8} (h : c.settle rc = some (c', rc')) :
    (¬ c.range < topValue ∧ c' = c ∧ rc' = rc) ∨
      (c.range < topValue ∧ ∃ b, rc = b :: rc' ∧
        c' = { c with range := c.range <<< 8, code := c.nextCode b }) := by
  by_cases hsmall : c.range < topValue
  · cases rc with
    | nil =>
        rw [settle_nil hsmall] at h
        cases h
    | cons b rc =>
        rw [settle_of_small hsmall] at h
        cases h
        exact Or.inr ⟨hsmall, b, rfl, rfl⟩
  · rw [settle_of_wide hsmall] at h
    cases h
    exact Or.inl ⟨hsmall, rfl, rfl⟩

theorem wide_of_shift {range : UInt32} (hlow : 2 ^ 16 ≤ range.toNat) (hsmall : range < topValue) :
    2 ^ 24 ≤ (range <<< 8).toNat := by
  rw [UInt32.lt_iff_toNat_lt, topValue_toNat] at hsmall
  rw [UInt32.toNat_shiftLeft, show (8 : UInt32).toNat % 32 = 8 from rfl, Nat.shiftLeft_eq,
    Nat.mod_eq_of_lt (by omega)]
  omega

theorem not_small_of_wide {range : UInt32} (h : 2 ^ 24 ≤ range.toNat) : ¬ range < topValue := by
  rw [UInt32.lt_iff_toNat_lt, topValue_toNat]
  omega

theorem bound_toNat (c : Core) (b : UInt8) :
    (c.bound b).toNat = c.range.toNat / 2 ^ 11 * c.probs[probIndex b c.prev].val := by
  have hhigh := c.probs[probIndex b c.prev].high
  have hrange := c.range.toNat_lt
  have hval : c.probs[probIndex b c.prev].val < 2 ^ 32 := by omega
  have hprod : c.range.toNat / 2 ^ 11 * c.probs[probIndex b c.prev].val < 2 ^ 32 := by
    calc c.range.toNat / 2 ^ 11 * c.probs[probIndex b c.prev].val
        ≤ c.range.toNat / 2 ^ 11 * 2 ^ 11 := Nat.mul_le_mul_left _ (by omega)
      _ ≤ c.range.toNat := Nat.div_mul_le_self _ _
      _ < 2 ^ 32 := hrange
  rw [bound, UInt32.toNat_mul, UInt32.toNat_shiftRight, UInt32.toNat_ofNat_of_lt' hval,
    show (11 : UInt32).toNat % 32 = 11 from rfl, Nat.shiftRight_eq_div_pow, Nat.mod_eq_of_lt hprod]

theorem bit_range {c : Core} (hwide : ¬ c.range < topValue) (b : UInt8) :
    2 ^ 16 ≤ (c.bit b).2.range.toNat := by
  rw [UInt32.lt_iff_toNat_lt, topValue_toNat] at hwide
  have hlow := c.probs[probIndex b c.prev].low
  have hhigh := c.probs[probIndex b c.prev].high
  have hbound := c.bound_toNat b
  have hquot : 2 ^ 13 ≤ c.range.toNat / 2 ^ 11 := by omega
  rw [bit]
  split
  · rw [hbound]
    calc 2 ^ 16 ≤ 2 ^ 13 * 31 := by decide
      _ ≤ _ := Nat.mul_le_mul hquot hlow
  · have hle : (c.bound b).toNat + c.range.toNat / 2 ^ 11 * 31 ≤ c.range.toNat := by
      rw [hbound, ← Nat.mul_add]
      calc c.range.toNat / 2 ^ 11 * (c.probs[probIndex b c.prev].val + 31)
          ≤ c.range.toNat / 2 ^ 11 * 2 ^ 11 := Nat.mul_le_mul_left _ (by omega)
        _ ≤ c.range.toNat := Nat.div_mul_le_self _ _
    have hsub : c.bound b ≤ c.range := by
      rw [UInt32.le_iff_toNat_le]
      omega
    dsimp only
    rw [UInt32.toNat_sub_of_le _ _ hsub]
    have : 2 ^ 13 * 31 ≤ c.range.toNat / 2 ^ 11 * 31 := Nat.mul_le_mul_right _ hquot
    omega

theorem settle_settled {c c' : Core} {rc rc' : List UInt8} (hlow : 2 ^ 16 ≤ c.range.toNat)
    (h : c.settle rc = some (c', rc')) : ¬ c'.range < topValue := by
  obtain ⟨hwide, rfl, -⟩ | ⟨hsmall, b, -, rfl⟩ := settle_cases h
  · exact hwide
  · exact not_small_of_wide (wide_of_shift hlow hsmall)

end Core

theorem top_settle {c c' : Core} {rc rc' : List UInt8} (hlow : 2 ^ 16 ≤ c.range.toNat)
    (h : c.settle rc = some (c', rc')) (main : List UInt8) (sides : Sides) (wanted : Nat) :
    top main c sides rc wanted = top main c' sides rc' wanted := by
  have hagain := Core.settle_of_wide (Core.settle_settled hlow h) rc'
  cases main with
  | nil => rw [top, top, h, hagain]
  | cons b main => rw [top, top, h, hagain]

def Unmarked : UInt8 → List UInt8 → Prop
  | _, [] => True
  | prev, b :: plain => ¬ Marked prev b ∧ Unmarked b plain

theorem foldl_pass (c : Core) (plain : List UInt8) :
    plain.foldl Core.pass c = { c with
      ip := c.ip + UInt32.ofNat plain.length
      prev := plain.getLast?.getD c.prev } := by
  induction plain generalizing c with
  | nil =>
      rw [List.foldl_nil, List.length_nil, show UInt32.ofNat 0 = 0 from rfl, UInt32.add_zero]
      rfl
  | cons b plain ih =>
      rw [List.foldl_cons, ih, List.length_cons, Nat.add_comm plain.length, UInt32.ofNat_add,
        List.getLast?_cons, ← UInt32.add_assoc]
      cases plain.getLast? with
      | none => rfl
      | some last => rfl

section

variable {c : Core} {main rc : List UInt8} {sides : Sides}

theorem top_nil (hwide : ¬ c.range < topValue) (wanted : Nat) :
    top [] c sides rc wanted = if wanted = 0 then c.verdict else some [] := by
  rw [top, Core.settle_of_wide hwide]

theorem top_cons (hwide : ¬ c.range < topValue) (b : UInt8) (wanted : Nat) :
    top (b :: main) c sides rc wanted =
      if wanted = 0 then c.verdict
      else if Marked c.prev b then
        match c.bit b with
        | (false, c) => (top main (c.pass b) sides rc (wanted - 1)).map (b :: ·)
        | (true, c) =>
            (address (fun c sides => top main c sides rc) (c.pass b) sides
              (wanted - 1)).map (b :: ·)
      else (top main (c.pass b) sides rc (wanted - 1)).map (b :: ·) := by
  rw [top, Core.settle_of_wide hwide]

theorem top_zero (hwide : ¬ c.range < topValue) : top main c sides rc 0 = c.verdict := by
  cases main with
  | nil => rw [top_nil hwide, if_pos rfl]
  | cons b main => rw [top_cons hwide, if_pos rfl]

theorem top_starved (hsmall : c.range < topValue) (wanted : Nat) :
    top main c sides [] wanted = starved wanted := by
  cases main with
  | nil => rw [top, Core.settle_nil hsmall]
  | cons b main => rw [top, Core.settle_nil hsmall]

theorem address_congr {go go' : Core → Sides → Nat → Option (List UInt8)} {c' : Core}
    (hprev : c'.prev = c.prev) (hip : c'.ip = c.ip)
    (hgo : ∀ value sides wanted,
      go (c.jumped value) sides wanted = go' (c'.jumped value) sides wanted) (wanted : Nat) :
    address go c sides wanted = address go' c' sides wanted := by
  have htarget : ∀ value, c'.target value = c.target value := by
    intro value
    rw [Core.target, Core.target, hip]
  rw [address, address, hprev]
  cases hget : sides.get c.prev with
  | nil => rfl
  | cons b₀ rest =>
      match rest with
      | [] => rfl
      | [_] => rfl
      | [_, _] => rfl
      | b₁ :: b₂ :: b₃ :: rest =>
          dsimp only
          rw [putWhole, putWhole, htarget, hgo]

namespace Config

theorem left_top (wanted : Nat) :
    left ⟨.top, c, main, sides, rc⟩ wanted = Bcj2.top main c sides rc wanted := rfl

theorem left_address (wanted : Nat) :
    left ⟨.address, c, main, sides, rc⟩ wanted =
      Bcj2.address (fun c sides => Bcj2.top main c sides rc) c sides wanted := rfl

theorem left_writing (bytes : List UInt8) (wanted : Nat) :
    left ⟨.writing bytes, c, main, sides, rc⟩ wanted =
      putWhole (Bcj2.top main c sides rc) bytes wanted := rfl

theorem emits_pass (hwide : ¬ c.range < topValue) {b : UInt8} (hb : ¬ Marked c.prev b) :
    Emits ⟨.top, c, b :: main, sides, rc⟩ [b] ⟨.top, c.pass b, main, sides, rc⟩ := by
  intro wanted hwanted
  rw [List.length_singleton] at hwanted
  rw [left_top, left_top, top_cons hwide, if_neg (by omega), if_neg hb]
  rfl

theorem emits_plain {plain : List UInt8} (hwide : ¬ c.range < topValue)
    (hplain : Unmarked c.prev plain) :
    Emits ⟨.top, c, plain ++ main, sides, rc⟩ plain
      ⟨.top, plain.foldl Core.pass c, main, sides, rc⟩ := by
  induction plain generalizing c with
  | nil => exact .refl _
  | cons b plain ih => exact (emits_pass hwide hplain.1).trans (ih hwide hplain.2)

theorem emits_bit_false (hwide : ¬ c.range < topValue) {b : UInt8} (hb : Marked c.prev b)
    {c' : Core} (hbit : c.bit b = (false, c')) :
    Emits ⟨.top, c, b :: main, sides, rc⟩ [b] ⟨.top, c'.pass b, main, sides, rc⟩ := by
  intro wanted hwanted
  rw [List.length_singleton] at hwanted
  rw [left_top, left_top, top_cons hwide, if_neg (by omega), if_pos hb, hbit]
  rfl

theorem emits_bit_true (hwide : ¬ c.range < topValue) {b : UInt8} (hb : Marked c.prev b)
    {c' : Core} (hbit : c.bit b = (true, c')) :
    Emits ⟨.top, c, b :: main, sides, rc⟩ [b] ⟨.address, c'.pass b, main, sides, rc⟩ := by
  intro wanted hwanted
  rw [List.length_singleton] at hwanted
  rw [left_top, left_address, top_cons hwide, if_neg (by omega), if_pos hb, hbit]
  rfl

theorem emits_address {b₀ b₁ b₂ b₃ : UInt8} {rest : List UInt8}
    (h : sides.get c.prev = b₀ :: b₁ :: b₂ :: b₃ :: rest) :
    Emits ⟨.address, c, main, sides, rc⟩ []
      ⟨.writing (c.target (beValue32 b₀ b₁ b₂ b₃)).toList, c.jumped (beValue32 b₀ b₁ b₂ b₃), main,
        sides.set c.prev rest, rc⟩ := by
  apply emits_nil
  intro wanted
  rw [left_address, left_writing, Bcj2.address, h]

theorem emits_writing (bytes bytes' : List UInt8) :
    Emits ⟨.writing (bytes ++ bytes'), c, main, sides, rc⟩ bytes
      ⟨.writing bytes', c, main, sides, rc⟩ := by
  intro wanted hwanted
  rw [left_writing, left_writing, putWhole, putWhole, List.length_append]
  by_cases hlt : wanted < bytes.length + bytes'.length
  · rw [if_pos hlt, if_pos (by omega), Option.map_none]
  · rw [if_neg hlt, if_neg (by omega), Option.map_map, Nat.sub_sub]
    congr 1
    funext out
    exact List.append_assoc _ _ _

theorem emits_written : Emits ⟨.writing [], c, main, sides, rc⟩ [] ⟨.top, c, main, sides, rc⟩ := by
  apply emits_nil
  intro wanted
  rw [left_writing, left_top, putWhole, List.length_nil, if_neg (Nat.not_lt_zero _), Nat.sub_zero]
  simp

theorem emits_settle {phase : Phase} (hphase : phase ≠ .starting) {c' : Core} {rc' : List UInt8}
    (hlow : 2 ^ 16 ≤ c.range.toNat) (h : c.settle rc = some (c', rc')) :
    Emits ⟨phase, c, main, sides, rc⟩ [] ⟨phase, c', main, sides, rc'⟩ := by
  apply emits_nil
  intro wanted
  cases phase with
  | starting => exact absurd rfl hphase
  | top => exact top_settle hlow h main sides wanted
  | writing bytes =>
      rw [left_writing, left_writing, putWhole, putWhole, top_settle hlow h]
  | address =>
      rw [left_address, left_address]
      obtain ⟨-, rfl, rfl⟩ | ⟨hsmall, b, rfl, rfl⟩ := Core.settle_cases h
      · rfl
      · refine address_congr (by rfl) (by rfl) (fun value sides wanted => ?_) wanted
        have hjumped : (c.jumped value).range < topValue := hsmall
        have hlow' : 2 ^ 16 ≤ (c.jumped value).range.toNat := hlow
        exact top_settle hlow' (Core.settle_of_small hjumped b rc') main sides wanted

theorem left_starting (wanted : Nat) :
    left ⟨.starting, c, main, sides, rc⟩ wanted =
      start (fun c rc => Bcj2.top main c sides rc wanted) wanted rc c := rfl

theorem emits_start (hrange : c.range ≠ 5) (hgood : ¬ (c.range = 1 ∧ c.code ≠ 0)) (b : UInt8) :
    Emits ⟨.starting, c, main, sides, b :: rc⟩ []
      ⟨.starting, { c with range := c.range + 1, code := c.nextCode b }, main, sides, rc⟩ := by
  apply emits_nil
  intro wanted
  rw [left_starting, left_starting, start, if_neg hrange, if_neg hgood]

theorem emits_started (hrange : c.range = 5) (hcode : c.code ≠ 0xFFFFFFFF) :
    Emits ⟨.starting, c, main, sides, rc⟩ []
      ⟨.top, { c with range := 0xFFFFFFFF }, main, sides, rc⟩ := by
  apply emits_nil
  intro wanted
  rw [left_starting, left_top]
  cases rc with
  | nil => rw [start, if_pos hrange, if_neg hcode]
  | cons b rc => rw [start, if_pos hrange, if_neg hcode]

theorem left_starting_refused (h : (c.range = 5 ∧ c.code = 0xFFFFFFFF) ∨
    (c.range = 1 ∧ c.code ≠ 0)) (wanted : Nat) :
    left ⟨.starting, c, main, sides, rc⟩ wanted = none := by
  rw [left_starting]
  rcases h with ⟨hrange, hcode⟩ | h
  · cases rc with
    | nil => rw [start, if_pos hrange, if_pos hcode]
    | cons b rc => rw [start, if_pos hrange, if_pos hcode]
  · have hrange : c.range ≠ 5 := by
      rw [h.1]
      decide
    cases rc with
    | nil => rw [start, if_neg hrange, if_pos h]
    | cons b rc => rw [start, if_neg hrange, if_pos h]

theorem left_starting_nil (hrange : c.range ≠ 5) (hgood : ¬ (c.range = 1 ∧ c.code ≠ 0))
    (wanted : Nat) : left ⟨.starting, c, main, sides, []⟩ wanted = starved wanted := by
  rw [left_starting, start, if_neg hrange, if_neg hgood]

theorem left_address_nil (h : sides.get c.prev = []) (wanted : Nat) :
    left ⟨.address, c, main, sides, rc⟩ wanted = starved wanted := by
  rw [left_address, Bcj2.address, h]

theorem left_address_torn (hpos : sides.get c.prev ≠ []) (hlt : (sides.get c.prev).length < 4)
    (wanted : Nat) :
    left ⟨.address, c, main, sides, rc⟩ wanted = if wanted = 0 then some [] else none := by
  rw [left_address, Bcj2.address]
  match hget : sides.get c.prev with
  | [] => exact absurd hget hpos
  | [_] => rfl
  | [_, _] => rfl
  | [_, _, _] => rfl
  | _ :: _ :: _ :: _ :: rest =>
      rw [hget] at hlt
      simp only [List.length_cons] at hlt
      omega

theorem left_writing_zero {bytes : List UInt8} (h : bytes ≠ []) :
    left ⟨.writing bytes, c, main, sides, rc⟩ 0 = none := by
  rw [left_writing, putWhole, if_pos (List.length_pos_of_ne_nil h)]

end Config

end

theorem map_length_le {out bytes : List UInt8} {wanted wanted' : Nat}
    {rest : Option (List UInt8)} (hrest : ∀ left, rest = some left → left.length ≤ wanted')
    (hwanted : out.length + wanted' ≤ wanted) (h : rest.map (out ++ ·) = some bytes) :
    bytes.length ≤ wanted := by
  obtain ⟨left, hleft, rfl⟩ := Option.map_eq_some_iff.mp h
  have := hrest left hleft
  rw [List.length_append]
  omega

theorem starved_length {bytes : List UInt8} {wanted : Nat} (h : starved wanted = some bytes) :
    bytes.length ≤ wanted := by
  unfold starved at h
  split at h
  · cases h
  · cases h
    exact Nat.zero_le _

theorem verdict_length {c : Core} {bytes : List UInt8} {wanted : Nat}
    (h : c.verdict = some bytes) : bytes.length ≤ wanted := by
  unfold Core.verdict at h
  split at h
  · cases h
    exact Nat.zero_le _
  · cases h

theorem putWhole_length {go : Nat → Option (List UInt8)} {bytes out : List UInt8} {wanted : Nat}
    (hgo : ∀ wanted out, go wanted = some out → out.length ≤ wanted)
    (h : putWhole go bytes wanted = some out) : out.length ≤ wanted := by
  unfold putWhole at h
  split at h
  · cases h
  · exact map_length_le (hgo _) (by omega) h

theorem address_length {go : Core → Sides → Nat → Option (List UInt8)} {c : Core} {sides : Sides}
    {out : List UInt8} {wanted : Nat}
    (hgo : ∀ c sides wanted out, go c sides wanted = some out → out.length ≤ wanted)
    (h : address go c sides wanted = some out) : out.length ≤ wanted := by
  unfold address at h
  split at h
  · exact starved_length h
  · exact putWhole_length (hgo _ _) h
  · split at h
    · cases h
      exact Nat.zero_le _
    · cases h

theorem top_length {main rc out : List UInt8} {c : Core} {sides : Sides} {wanted : Nat}
    (h : top main c sides rc wanted = some out) : out.length ≤ wanted := by
  induction main generalizing c sides rc wanted out with
  | nil =>
      unfold top at h
      split at h
      · exact starved_length h
      · split at h
        · exact verdict_length h
        · cases h
          exact Nat.zero_le _
  | cons b main ih =>
      unfold top at h
      split at h
      · exact starved_length h
      · split at h
        · exact verdict_length h
        · have hone : [b].length + (wanted - 1) ≤ wanted := by
            rw [List.length_singleton]
            omega
          split at h
          · split at h
            · exact map_length_le (fun _ hrest => ih hrest) hone h
            · exact map_length_le (fun _ hrest => address_length (fun _ _ _ _ hgo => ih hgo) hrest)
                hone h
          · exact map_length_le (fun _ hrest => ih hrest) hone h

theorem start_length {go : Core → List UInt8 → Option (List UInt8)} {rc out : List UInt8} {c : Core}
    {wanted : Nat} (hgo : ∀ c rc out, go c rc = some out → out.length ≤ wanted)
    (h : start go wanted rc c = some out) : out.length ≤ wanted := by
  induction rc generalizing c with
  | nil =>
      unfold start at h
      split at h
      · split at h
        · cases h
        · exact hgo _ _ _ h
      · split at h
        · cases h
        · exact starved_length h
  | cons b rc ih =>
      unfold start at h
      split at h
      · split at h
        · cases h
        · exact hgo _ _ _ h
      · split at h
        · cases h
        · exact ih h

theorem decode_length_le {size : Nat} {streams : Bcj2Stream → List UInt8} {out : List UInt8}
    (h : decode size streams = some out) : out.length ≤ size := by
  unfold decode at h
  split at h
  · cases h
    exact Nat.zero_le _
  · exact start_length (fun _ _ _ hgo => top_length hgo) h

end Sevenz.Bcj2
