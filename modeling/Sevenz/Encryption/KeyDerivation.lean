import Sevenz.Lib.Sha256
import Sevenz.Reader.KeyBudget

/-!
# The key of an AES coder

`get_aes_key` with its slices and copies, which panic out of range, and what the key it
returns is.
-/

namespace Sevenz

open Lib

def sliceOf (xs : List UInt8) (start stop : Nat) : Result (List UInt8) :=
  if start ≤ stop ∧ stop ≤ xs.length then .ok ((xs.take stop).drop start)
  else .error (.panic .indexOutOfBounds)

def copyFromSlice (xs : List UInt8) (start stop : Nat) (source : List UInt8) :
    Result (List UInt8) :=
  if start ≤ stop ∧ stop ≤ xs.length ∧ source.length = stop - start then
    .ok (xs.take start ++ (source ++ xs.drop stop))
  else .error (.panic .indexOutOfBounds)

def addU8 (a b : UInt8) : Result Nat :=
  if a.toNat + b.toNat < 256 then .ok (a.toNat + b.toNat)
  else .error (.panic .attemptToAddWithOverflow)

def subUsize (a b : Nat) : Result Nat :=
  if b ≤ a then .ok (a - b) else .error (.panic .attemptToSubtractWithOverflow)

theorem sliceOf_of_le {xs : List UInt8} {start stop : Nat} (hstart : start ≤ stop)
    (hstop : stop ≤ xs.length) : sliceOf xs start stop = .ok ((xs.take stop).drop start) :=
  if_pos ⟨hstart, hstop⟩

theorem copyFromSlice_of_le {xs source : List UInt8} {start stop : Nat} (hstart : start ≤ stop)
    (hstop : stop ≤ xs.length) (hsource : source.length = stop - start) :
    copyFromSlice xs start stop source = .ok (xs.take start ++ (source ++ xs.drop stop)) :=
  if_pos ⟨hstart, hstop, hsource⟩

def ownedProperties : List UInt8 → Result (List UInt8)
  | [] => Result.fail (.other "AES256 properties too short")
  | [first] => .ok [first, 0]
  | properties => .ok properties

def sliceAesKeyParts (properties : List UInt8) : Result (UInt8 × List UInt8 × List UInt8) := do
  let properties ← ownedProperties properties
  let b0 ← Result.index properties 0
  let b1 ← Result.index properties 1
  let ivSize ← addU8 ((b0 >>> 6) &&& 1) (b1 &&& 15)
  let saltSize ← addU8 ((b0 >>> 7) &&& 1) (b1 >>> 4)
  Result.rejectIf (2 + saltSize + ivSize > properties.length)
    (.other "Salt size + IV size too long")
  let source ← sliceOf properties 2 (2 + saltSize)
  let salt ← copyFromSlice (List.replicate saltSize 0) 0 saltSize source
  let source ← sliceOf properties (2 + saltSize) (2 + saltSize + ivSize)
  let iv ← copyFromSlice (List.replicate 16 0) 0 ivSize source
  pure (b0 &&& 63, salt, iv)

def sliceRawKey (salt password : List UInt8) : Result (List UInt8) := do
  let source ← sliceOf salt 0 salt.length
  let key ← copyFromSlice (List.replicate 32 0) 0 salt.length source
  let room ← subUsize key.length salt.length
  let n := min password.length room
  let source ← sliceOf password 0 n
  copyFromSlice key salt.length (n + salt.length) source

def sliceAesKey (sha : Sha256) (password properties : List UInt8) (maxCyclesPower : UInt8)
    (maxKdfRounds : UInt64) (cache : KeyCache) : Result (List UInt8 × List UInt8) × KeyCache :=
  match sliceAesKeyParts properties with
  | .error fault => (.error fault, cache)
  | .ok (power, salt, iv) =>
      let cap := min maxCyclesPower.toNat maxAesCyclesPower
      if password.isEmpty then (Result.fail .passwordRequired, cache)
      else if power = 0x3F then ((sliceRawKey salt password).map fun key => (key, iv), cache)
      else if power.toNat > cap then
        (Result.fail (.limitExceeded .aesCyclesPower cap power.toNat), cache)
      else
        let (key, cache) := deriveKeyWithBudget sha password power salt maxKdfRounds cache
        (key.map fun key => (key, iv), cache)

/-- The property bytes of an AES coder: the two that declare its sizes, and the rest. -/
structure AesDeclaration where
  first : UInt8
  second : UInt8
  rest : List UInt8

namespace AesDeclaration

def ofProperties : List UInt8 → Option AesDeclaration
  | [] => none
  | [first] => some { first, second := 0, rest := [] }
  | first :: second :: rest => some { first, second, rest }

variable (d : AesDeclaration)

def power : Nat := d.first.toNat % 64

def saltSize : Nat := d.first.toNat / 128 + d.second.toNat / 16

def ivSize : Nat := d.first.toNat / 64 % 2 + d.second.toNat % 16

def salt : List UInt8 := d.rest.take d.saltSize

def iv : List UInt8 := (d.rest.drop d.saltSize).take d.ivSize

def Fits : Prop := d.saltSize + d.ivSize ≤ d.rest.length

instance : Decidable d.Fits := inferInstanceAs (Decidable (_ ≤ _))

theorem saltSize_le : d.saltSize ≤ 16 := by
  have hfirst := d.first.toNat_lt
  have hsecond := d.second.toNat_lt
  unfold saltSize
  omega

theorem ivSize_le : d.ivSize ≤ 16 := by
  unfold ivSize
  omega

variable {d}

theorem Fits.salt_length (h : d.Fits) : d.salt.length = d.saltSize := by
  unfold Fits at h
  rw [salt, List.length_take]
  omega

theorem Fits.iv_length (h : d.Fits) : d.iv.length = d.ivSize := by
  unfold Fits at h
  rw [iv, List.length_take, List.length_drop]
  omega

end AesDeclaration

private theorem propertyBits : ∀ n : Fin 256, ∀ b, b = UInt8.ofNat n →
    ((b >>> 6) &&& 1).toNat = n / 64 % 2 ∧ ((b >>> 7) &&& 1).toNat = n / 128 ∧
      (b &&& 15).toNat = n % 16 ∧ (b >>> 4).toNat = n / 16 ∧ (b &&& 63).toNat = n % 64 := by
  rintro n b rfl
  revert n
  decide +kernel

theorem toNat_propertyBits (b : UInt8) :
    ((b >>> 6) &&& 1).toNat = b.toNat / 64 % 2 ∧ ((b >>> 7) &&& 1).toNat = b.toNat / 128 ∧
      (b &&& 15).toNat = b.toNat % 16 ∧ (b >>> 4).toNat = b.toNat / 16 ∧
      (b &&& 63).toNat = b.toNat % 64 :=
  propertyBits ⟨b.toNat, b.toNat_lt⟩ b UInt8.ofNat_toNat.symm

theorem ownedProperties_of_declaration {properties : List UInt8} {d : AesDeclaration}
    (h : AesDeclaration.ofProperties properties = some d) :
    ownedProperties properties = .ok (d.first :: d.second :: d.rest) := by
  match properties, h with
  | [first], h =>
      cases h
      rfl
  | first :: second :: rest, h =>
      cases h
      rfl

theorem sliceAesKeyParts_of_declaration {properties : List UInt8} {d : AesDeclaration}
    (h : AesDeclaration.ofProperties properties = some d) :
    sliceAesKeyParts properties =
      if d.Fits then
        .ok (d.first &&& 63, d.salt, d.iv ++ List.replicate (16 - d.ivSize) 0)
      else Result.fail (.other "Salt size + IV size too long") := by
  obtain ⟨hbit6, hbit7, -, -, -⟩ := toNat_propertyBits d.first
  obtain ⟨-, -, hlow, hhigh, -⟩ := toNat_propertyBits d.second
  have hsalt := d.saltSize_le
  have hiv := d.ivSize_le
  have hivSize : addU8 ((d.first >>> 6) &&& 1) (d.second &&& 15) = .ok d.ivSize := by
    rw [addU8, hbit6, hlow]
    exact if_pos (Nat.lt_of_le_of_lt hiv (by decide))
  have hsaltSize : addU8 ((d.first >>> 7) &&& 1) (d.second >>> 4) = .ok d.saltSize := by
    rw [addU8, hbit7, hhigh]
    exact if_pos (Nat.lt_of_le_of_lt hsalt (by decide))
  rw [sliceAesKeyParts, Result.bind_of_ok (ownedProperties_of_declaration h),
    Result.bind_of_ok (show Result.index (d.first :: d.second :: d.rest) 0 = .ok d.first from rfl),
    Result.bind_of_ok (show Result.index (d.first :: d.second :: d.rest) 1 = .ok d.second from rfl),
    Result.bind_of_ok hivSize, Result.bind_of_ok hsaltSize]
  have hlength : (d.first :: d.second :: d.rest).length = d.rest.length + 2 := rfl
  by_cases hfits : d.Fits
  · have hroom : d.saltSize + d.ivSize ≤ d.rest.length := hfits
    rw [if_pos hfits, Result.bind_of_ok ((Result.rejectIf_eq_ok (u := ())).mpr (by omega)),
      Result.bind_of_ok (sliceOf_of_le (Nat.le_add_right _ _) (by omega))]
    -- the two slices are the salt and the initialization vector
    have hsaltSlice : ((d.first :: d.second :: d.rest).take (2 + d.saltSize)).drop 2 = d.salt := by
      rw [List.drop_take, Nat.add_sub_cancel_left]
      rfl
    have hivSlice : ((d.first :: d.second :: d.rest).take (2 + d.saltSize + d.ivSize)).drop
        (2 + d.saltSize) = d.iv := by
      rw [List.drop_take, Nat.add_sub_cancel_left, ← List.drop_drop]
      rfl
    rw [hsaltSlice, Result.bind_of_ok (copyFromSlice_of_le (Nat.zero_le _) (by simp)
        (by rw [hfits.salt_length, Nat.sub_zero])),
      Result.bind_of_ok (sliceOf_of_le (Nat.le_add_right _ _) (by omega)), hivSlice,
      Result.bind_of_ok (copyFromSlice_of_le (Nat.zero_le _) (by simpa using hiv)
        (by rw [hfits.iv_length, Nat.sub_zero]))]
    simp only [List.take_zero, List.nil_append, List.drop_replicate, Nat.sub_self,
      List.replicate_zero, List.append_nil]
    rfl
  · have hroom : ¬ d.saltSize + d.ivSize ≤ d.rest.length := hfits
    rw [if_neg hfits, Result.rejectIf, if_pos (by omega)]
    rfl

theorem sliceRawKey_eq {salt password : List UInt8} (hsalt : salt.length ≤ 16) :
    sliceRawKey salt password =
      .ok ((salt ++ (password ++ List.replicate 32 0)).take 32) := by
  have hsource : sliceOf salt 0 salt.length = .ok salt := by
    rw [sliceOf_of_le (Nat.zero_le _) (Nat.le_refl _), List.take_length, List.drop_zero]
  have hkey : copyFromSlice (List.replicate 32 0) 0 salt.length salt =
      .ok (salt ++ List.replicate (32 - salt.length) 0) := by
    rw [copyFromSlice_of_le (Nat.zero_le _) (by simpa using (by omega : salt.length ≤ 32))
      (Nat.sub_zero _).symm, List.take_zero, List.nil_append, List.drop_replicate]
  rw [sliceRawKey, Result.bind_of_ok hsource, Result.bind_of_ok hkey]
  have hlength : (salt ++ List.replicate (32 - salt.length) (0 : UInt8)).length = 32 := by
    rw [List.length_append, List.length_replicate]
    omega
  have hroom : subUsize 32 salt.length = .ok (32 - salt.length) := if_pos (by omega)
  rw [hlength, Result.bind_of_ok hroom]
  dsimp only
  obtain ⟨n, hn⟩ : ∃ n, n = min password.length (32 - salt.length) := ⟨_, rfl⟩
  have hpassword : sliceOf password 0 n = .ok (password.take n) := by
    rw [sliceOf_of_le (Nat.zero_le _) (by omega), List.drop_zero]
  rw [← hn, Result.bind_of_ok hpassword, copyFromSlice_of_le (Nat.le_add_left _ _)
    (by rw [hlength]; omega) (by rw [List.length_take]; omega)]
  have htail : (salt ++ List.replicate (32 - salt.length) (0 : UInt8)).drop (n + salt.length) =
      List.replicate (32 - salt.length - password.length) 0 := by
    rw [Nat.add_comm, ← List.drop_drop, List.drop_left, List.drop_replicate]
    congr 1
    omega
  have htake : password.take n = password.take (32 - salt.length) := by
    rw [hn, List.take_eq_take_iff]
    omega
  rw [List.take_left, htail, htake, List.take_append,
    List.take_of_length_le (show salt.length ≤ 32 by omega), List.take_append,
    List.take_replicate, Nat.min_eq_left (by omega)]

theorem aesKeyParts_of_declaration {properties : List UInt8} {d : AesDeclaration}
    (h : AesDeclaration.ofProperties properties = some d) :
    aesKeyParts properties =
      if d.Fits then
        .ok (d.first &&& 63, d.salt, d.iv ++ List.replicate (16 - d.ivSize) 0)
      else Result.fail (.other "Salt size + IV size too long") := by
  obtain ⟨hbit6, hbit7, -, -, -⟩ := toNat_propertyBits d.first
  obtain ⟨-, -, hlow, hhigh, -⟩ := toNat_propertyBits d.second
  have hivSize : (((d.first >>> 6) &&& (1 : UInt8)) + (d.second &&& 15)).toNat = d.ivSize := by
    rw [UInt8.toNat_add, hbit6, hlow]
    exact Nat.mod_eq_of_lt (Nat.lt_of_le_of_lt d.ivSize_le (by decide))
  have hsaltSize : (((d.first >>> 7) &&& (1 : UInt8)) + (d.second >>> 4)).toNat =
      d.saltSize := by
    rw [UInt8.toNat_add, hbit7, hhigh]
    exact Nat.mod_eq_of_lt (Nat.lt_of_le_of_lt d.saltSize_le (by decide))
  have hhead : properties.head? = some d.first ∧
      (if properties.length = 1 then [d.first, 0] else properties) =
        d.first :: d.second :: d.rest := by
    match properties, h with
    | [first], h =>
        cases h
        exact ⟨rfl, rfl⟩
    | first :: second :: rest, h =>
        cases h
        refine ⟨rfl, if_neg ?_⟩
        rw [List.length_cons, List.length_cons]
        omega
  rw [aesKeyParts, hhead.1, Result.bind_of_ok (Result.okOr_eq_ok.mpr rfl)]
  dsimp only
  rw [hhead.2, List.getD_cons_succ, List.getD_cons_zero, hivSize, hsaltSize]
  have hlength : (d.first :: d.second :: d.rest).length = d.rest.length + 2 := rfl
  by_cases hfits : d.Fits
  · have hroom : d.saltSize + d.ivSize ≤ d.rest.length := hfits
    rw [if_pos hfits, Result.bind_of_ok ((Result.rejectIf_eq_ok (u := ())).mpr (by omega)),
      ← List.drop_drop]
    rfl
  · have hroom : ¬ d.saltSize + d.ivSize ≤ d.rest.length := hfits
    rw [if_neg hfits, Result.rejectIf, if_pos (by omega)]
    rfl

theorem AesDeclaration.ofProperties_eq_none {properties : List UInt8}
    (h : ofProperties properties = none) : properties = [] := by
  cases properties with
  | nil => rfl
  | cons first rest => cases rest <;> cases h

theorem sliceAesKeyParts_eq (properties : List UInt8) :
    sliceAesKeyParts properties = aesKeyParts properties := by
  cases h : AesDeclaration.ofProperties properties with
  | none =>
      obtain rfl := AesDeclaration.ofProperties_eq_none h
      rfl
  | some d => rw [sliceAesKeyParts_of_declaration h, aesKeyParts_of_declaration h]

theorem take_append_zeros (salt password : List UInt8) (hsalt : salt.length ≤ 32) :
    (salt ++ (password ++ List.replicate 32 0)).take 32 = rawKey salt password := by
  rw [rawKey, List.take_append, List.take_of_length_le hsalt, List.take_append,
    List.take_replicate, Nat.min_eq_left (by omega), List.append_assoc]
  congr 3
  rw [List.length_append, List.length_take]
  omega

theorem sliceAesKey_eq (sha : Sha256) (password properties : List UInt8) (maxCyclesPower : UInt8)
    (maxKdfRounds : UInt64) (cache : KeyCache) :
    sliceAesKey sha password properties maxCyclesPower maxKdfRounds cache =
      getAesKey sha password properties maxCyclesPower maxKdfRounds cache := by
  rw [sliceAesKey, getAesKey, sliceAesKeyParts_eq]
  cases h : AesDeclaration.ofProperties properties with
  | none =>
      obtain rfl := AesDeclaration.ofProperties_eq_none h
      rfl
  | some d =>
      rw [aesKeyParts_of_declaration h]
      by_cases hfits : d.Fits
      · have hsalt : d.salt.length ≤ 16 := hfits.salt_length ▸ d.saltSize_le
        rw [if_pos hfits]
        dsimp only
        rw [sliceRawKey_eq hsalt, take_append_zeros d.salt password (by omega)]
        rfl
      · rw [if_neg hfits]
        rfl

def Sha256.Hashes (sha : Sha256) (hash : List UInt8 → List UInt8) : Prop :=
  ∀ updates : List (List UInt8),
    sha.finalize (updates.foldl (fun state bytes => sha.update bytes state) sha.new) =
      hash updates.flatten

theorem incrementExtra_leBytes (width i : Nat) :
    incrementExtra (leBytes width i) = leBytes width (i + 1) := by
  induction width generalizing i with
  | zero => rfl
  | succ width ih =>
      have hnext : UInt8.ofNat i + 1 = UInt8.ofNat (i + 1) := by
        rw [← UInt8.toNat_inj, UInt8.toNat_add, UInt8.toNat_ofNat', UInt8.toNat_ofNat']
        simp
      have hcarry : UInt8.ofNat (i + 1) = 0 ↔ (i + 1) % 256 = 0 := by
        rw [← UInt8.toNat_inj, UInt8.toNat_ofNat']
        rfl
      rw [leBytes, leBytes, incrementExtra, hnext]
      by_cases hzero : UInt8.ofNat (i + 1) = 0
      · have hdiv : (i + 1) / 256 = i / 256 + 1 := by
          have := hcarry.mp hzero
          omega
        rw [if_neg (not_not.mpr hzero), ih, hdiv, hzero]
      · have hdiv : (i + 1) / 256 = i / 256 := by
          have := hcarry.not.mp hzero
          omega
        rw [if_pos hzero, hdiv]

def roundUpdates (salt password : List UInt8) (i : Nat) : List (List UInt8) :=
  [salt, password, leBytes 8 i]

/-- What the rounds hash: the salt, the password and the number of the round, over and over. -/
def keyInput (salt password : List UInt8) (rounds : Nat) : List UInt8 :=
  (List.range rounds).flatMap fun i => salt ++ (password ++ leBytes 8 i)

theorem deriveKeyLoop_eq (sha : Sha256) (salt password : List UInt8) (rounds i : Nat)
    (state : sha.State) :
    deriveKeyLoop sha salt password rounds (leBytes 8 i) state =
      ((List.range' i rounds).flatMap (roundUpdates salt password)).foldl
        (fun state bytes => sha.update bytes state) state := by
  induction rounds generalizing i state with
  | zero => rfl
  | succ rounds ih =>
      rw [deriveKeyLoop, incrementExtra_leBytes, ih, List.range'_succ, List.flatMap_cons,
        List.foldl_append]
      rfl

theorem flatten_roundUpdates (salt password : List UInt8) (is : List Nat) :
    (is.flatMap (roundUpdates salt password)).flatten =
      is.flatMap fun i => salt ++ (password ++ leBytes 8 i) := by
  induction is with
  | nil => rfl
  | cons i is ih =>
      rw [List.flatMap_cons, List.flatMap_cons, List.flatten_append, ih]
      simp [roundUpdates]

theorem deriveKey_eq {sha : Sha256} {hash : List UInt8 → List UInt8} (hsha : sha.Hashes hash)
    (salt password : List UInt8) (power : UInt8) :
    deriveKey sha salt password power = hash (keyInput salt password (2 ^ power.toNat)) := by
  have hzero : List.replicate 8 (0 : UInt8) = leBytes 8 0 := by decide
  rw [deriveKey, hzero, deriveKeyLoop_eq, hsha, flatten_roundUpdates, keyInput,
    List.range_eq_range']

structure KeyCall where
  properties : List UInt8
  maxCyclesPower : UInt8
  maxKdfRounds : UInt64

namespace KeyCall

variable (sha : Sha256) (password : List UInt8)

def ask (call : KeyCall) (cache : KeyCache) : Result (List UInt8 × List UInt8) × KeyCache :=
  sliceAesKey sha password call.properties call.maxCyclesPower call.maxKdfRounds cache

def cap (call : KeyCall) : Nat := min call.maxCyclesPower.toNat maxAesCyclesPower

def step (cache : KeyCache) (call : KeyCall) : Option KeyCache :=
  some (call.ask sha password cache).2

end KeyCall

structure KeyCall.Answers (hash : List UInt8 → List UInt8) (password : List UInt8)
    (call : KeyCall) (answer : Result (List UInt8 × List UInt8)) : Prop where
  noPanic : Result.NoPanic answer
  key : ∀ key iv, answer = .ok (key, iv) →
    ∃ d, AesDeclaration.ofProperties call.properties = some d ∧
      d.salt.length = d.saltSize ∧ d.iv.length = d.ivSize ∧
      iv = d.iv ++ List.replicate (16 - d.iv.length) 0 ∧
      (d.power = 63 → key = (d.salt ++ (password ++ List.replicate 32 0)).take 32) ∧
      (d.power ≠ 63 → d.power ≤ call.cap ∧ key = hash (keyInput d.salt password (2 ^ d.power)))
  refused : ∀ d, AesDeclaration.ofProperties call.properties = some d → d.power ≠ 63 →
    call.cap < d.power → ∃ e, answer = .error (.error e)

section

variable {sha : Sha256} {password : List UInt8} {cache : KeyCache}

theorem KeyCall.step_sound {after : KeyCache} {call : KeyCall}
    (hstep : step sha password cache call = some after) (h : cache.Sound sha password) :
    after.Sound sha password := by
  cases hstep
  rw [ask, sliceAesKey_eq]
  rcases getAesKey_cases call.properties call.maxCyclesPower call.maxKdfRounds cache with
    hsame | ⟨req, -, hderive⟩
  · rw [hsame]
    exact h
  · rw [hderive]
    exact req.derive_sound h

theorem deriveKeyWithBudget_returns (h : cache.Sound sha password) (power : UInt8)
    (salt : List UInt8) (maxRounds : UInt64) :
    Result.NoPanic (deriveKeyWithBudget sha password power salt maxRounds cache).1 ∧
      ∀ key, (deriveKeyWithBudget sha password power salt maxRounds cache).1 = .ok key →
        key = deriveKey sha salt password power := by
  unfold deriveKeyWithBudget
  cases hhit : cache.hit power salt with
  | some cached =>
      refine ⟨Result.noPanic_ok _, ?_⟩
      rintro key ⟨⟩
      exact h.of_hit hhit
  | none =>
      have hcharge : Result.NoPanic (cache.charge power maxRounds) :=
        (Result.noPanic_okOr _ _).bind fun rounds _ =>
          (Result.noPanic_rejectIf _ _).bind fun _ _ => Result.noPanic_ok _
      dsimp only
      cases hrounds : cache.charge power maxRounds with
      | error fault =>
          rw [hrounds] at hcharge
          exact ⟨fun p hp => hcharge p (by cases hp; rfl), fun _ hkey => nomatch hkey⟩
      | ok rounds =>
          refine ⟨Result.noPanic_ok _, ?_⟩
          rintro key ⟨⟩
          rfl

theorem map_pair_eq_ok {α β : Type} {x : Result α} {a : α} {b b' : β} :
    x.map (fun a => (a, b)) = .ok (a, b') ↔ x = .ok a ∧ b' = b := by
  cases x with
  | error fault => exact ⟨(fun h => nomatch h), fun h => nomatch h.1⟩
  | ok a' =>
      constructor
      · intro h
        cases h
        exact ⟨rfl, rfl⟩
      · rintro ⟨⟨⟩, rfl⟩
        rfl

theorem noPanic_map_pair {α β : Type} {x : Result α} {b : β} (h : Result.NoPanic x) :
    Result.NoPanic (x.map fun a => (a, b)) := by
  cases x with
  | error fault => exact fun p hp => h p (by cases hp; rfl)
  | ok a => exact Result.noPanic_ok _

theorem KeyCall.answers {hash : List UInt8 → List UInt8} (hsha : sha.Hashes hash)
    (h : cache.Sound sha password) (call : KeyCall) :
    call.Answers hash password (call.ask sha password cache).1 := by
  have herror : ∀ e, call.Answers hash password (Result.fail e) := fun e =>
    ⟨Result.noPanic_fail e, (fun _ _ hkey => nomatch hkey), fun _ _ _ _ => ⟨e, rfl⟩⟩
  rw [ask, sliceAesKey]
  cases hd : AesDeclaration.ofProperties call.properties with
  | none =>
      rw [AesDeclaration.ofProperties_eq_none hd]
      exact herror _
  | some d =>
      rw [sliceAesKeyParts_of_declaration hd]
      by_cases hfits : d.Fits
      · obtain ⟨-, -, -, -, hpower⟩ := toNat_propertyBits d.first
        have hsalt : d.salt.length ≤ 16 := hfits.salt_length ▸ d.saltSize_le
        rw [if_pos hfits]
        dsimp only
        split_ifs with hempty hraw hcap
        · exact herror _
        · have h63 : d.power = 63 := by
            rw [AesDeclaration.power, ← hpower, hraw]
            rfl
          rw [sliceRawKey_eq hsalt]
          refine ⟨Result.noPanic_ok _, ?_, ?_⟩
          · rintro key iv ⟨⟩
            exact ⟨d, hd, hfits.salt_length, hfits.iv_length, by rw [hfits.iv_length],
              fun _ => rfl, fun hne => absurd h63 hne⟩
          · intro d' hd' hne
            rw [hd] at hd'
            cases hd'
            exact absurd h63 hne
        · exact herror _
        · have hne : d.power ≠ 63 := by
            intro h63
            rw [AesDeclaration.power, ← hpower] at h63
            exact hraw (UInt8.toNat_inj.mp h63)
          have hle : d.power ≤ call.cap := by
            rw [AesDeclaration.power, ← hpower]
            exact Nat.not_lt.mp hcap
          obtain ⟨hpanic, hkey⟩ := deriveKeyWithBudget_returns h (d.first &&& 63) d.salt
            call.maxKdfRounds
          refine ⟨noPanic_map_pair hpanic, ?_, ?_⟩
          · intro key iv hanswer
            obtain ⟨hreturned, rfl⟩ := map_pair_eq_ok.mp hanswer
            refine ⟨d, hd, hfits.salt_length, hfits.iv_length, by rw [hfits.iv_length],
              fun h63 => absurd h63 hne, fun _ => ⟨hle, ?_⟩⟩
            rw [hkey key hreturned, deriveKey_eq hsha, hpower]
            rfl
          · intro d' hd' _ hlarge
            rw [hd] at hd'
            cases hd'
            exact absurd hle (Nat.not_le_of_lt hlarge)
      · rw [if_neg hfits]
        exact herror _

/-- After any calls on a password a call never panics, and the key and the initialization vector
it returns are those its properties declare: hashed, or the raw key, and refused above the
cap. -/
theorem getAesKey_answers {sha : Sha256} {hash : List UInt8 → List UInt8} (hsha : sha.Hashes hash)
    (password : List UInt8) (calls : List KeyCall) (cache : KeyCache)
    (hrun : run (KeyCall.step sha password) {} calls = some cache) (call : KeyCall) :
    call.Answers hash password (call.ask sha password cache).1 := by
  apply KeyCall.answers hsha _ call
  apply run_invariant (I := KeyCache.Sound sha password) _ _ hrun
  · intro before call after hstep
    exact KeyCall.step_sound hstep
  · intro cached hcached
    cases hcached

end

def messageSha256 : Sha256 where
  State := List UInt8
  new := []
  update bytes message := message ++ bytes
  finalize := Lib.Sha256.hash

theorem messageSha256_hashes : messageSha256.Hashes Lib.Sha256.hash := by
  intro updates
  have hfold : ∀ (updates : List (List UInt8)) (message : List UInt8),
      updates.foldl (fun message bytes => message ++ bytes) message =
        message ++ updates.flatten := by
    intro updates
    induction updates with
    | nil => exact fun message => (List.append_nil message).symm
    | cons bytes updates ih =>
        intro message
        rw [List.foldl_cons, ih, List.flatten_cons, List.append_assoc]
  exact congrArg Lib.Sha256.hash (hfold updates [])

def twoRounds : KeyCall :=
  { properties := [0xC1, 0x01, 0x73, 0x01, 0x02], maxCyclesPower := 24, maxKdfRounds := 2 }

theorem twoRounds_answers :
    twoRounds.Answers Lib.Sha256.hash [0x70, 0x77]
        (twoRounds.ask messageSha256 [0x70, 0x77]
          (twoRounds.ask messageSha256 [0x70, 0x77] {}).2).1 ∧
      (twoRounds.ask messageSha256 [0x70, 0x77] {}).1.holds (fun answer =>
        answer.1 == Lib.Sha256.hash
            [0x73, 0x70, 0x77, 0, 0, 0, 0, 0, 0, 0, 0, 0x73, 0x70, 0x77, 1, 0, 0, 0, 0, 0, 0, 0] &&
          answer.2 == [1, 2, 0, 0, 0, 0, 0, 0, 0, 0, 0, 0, 0, 0, 0, 0]) = true :=
  ⟨getAesKey_answers messageSha256_hashes [0x70, 0x77] [twoRounds] _ rfl twoRounds,
    by decide +kernel⟩

end Sevenz
