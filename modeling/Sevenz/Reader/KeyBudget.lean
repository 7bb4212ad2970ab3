import Sevenz.Lib.Runs
import Sevenz.Reader.DecodeStack

/-!
# Key derivation under a budget

`encryption/aes.rs`: a password keeps the last key derived from it, and counts the rounds of
every derivation it was made to do.  The cache is used under a lock, so the calls on one
password come one after the other.
-/

namespace Sevenz

open Lib

structure Sha256 where
  State : Type
  new : State
  update : List UInt8 → State → State
  finalize : State → List UInt8

/-- The counter of `derive_key_with`, one up: least significant byte first, with its carry. -/
def incrementExtra : List UInt8 → List UInt8
  | [] => []
  | item :: extra => if item + 1 ≠ 0 then (item + 1) :: extra else 0 :: incrementExtra extra

section

variable (sha : Sha256) (salt password : List UInt8)

def deriveKeyLoop : Nat → List UInt8 → sha.State → sha.State
  | 0, _, state => state
  | rounds + 1, extra, state =>
      deriveKeyLoop rounds (incrementExtra extra)
        (sha.update extra (sha.update password (sha.update salt state)))

def deriveKey (numCyclesPower : UInt8) : List UInt8 :=
  sha.finalize
    (deriveKeyLoop sha salt password (2 ^ numCyclesPower.toNat) (List.replicate 8 0) sha.new)

end

structure CachedKey where
  power : UInt8
  salt : List UInt8
  key : List UInt8
  deriving DecidableEq

structure KeyCache where
  key : Option CachedKey := none
  rounds : UInt64 := 0
  deriving DecidableEq

def KeyCache.hit (cache : KeyCache) (numCyclesPower : UInt8) (salt : List UInt8) :
    Option CachedKey :=
  cache.key.filter fun cached => cached.power == numCyclesPower && cached.salt == salt

/-- What is charged for a derivation: `rounds.checked_add(1u64 << num_cycles_power)`, compared
with the most the caller allows.  The shift is that of a power below 64. -/
def KeyCache.charge (cache : KeyCache) (numCyclesPower : UInt8) (maxRounds : UInt64) :
    Result UInt64 := do
  let rounds ← Result.okOr (.other "AES KDF work total overflow")
    (checkedAdd cache.rounds.toNat (2 ^ numCyclesPower.toNat))
  Result.rejectIf (rounds > maxRounds.toNat) (.limitExceeded .aesKdfRounds maxRounds.toNat rounds)
  pure (UInt64.ofNat rounds)

def deriveKeyWithBudget (sha : Sha256) (password : List UInt8) (numCyclesPower : UInt8)
    (salt : List UInt8) (maxRounds : UInt64) (cache : KeyCache) :
    Result (List UInt8) × KeyCache :=
  match cache.hit numCyclesPower salt with
  | some cached => (.ok cached.key, cache)
  | none =>
      match cache.charge numCyclesPower maxRounds with
      | .error fault => (.error fault, cache)
      | .ok rounds =>
          let key := deriveKey sha salt password numCyclesPower
          (.ok key, { key := some { power := numCyclesPower, salt, key }, rounds })

def aesKeyParts (properties : List UInt8) : Result (UInt8 × List UInt8 × List UInt8) := do
  let first ← Result.okOr (.other "AES256 properties too short") properties.head?
  let properties := if properties.length = 1 then [first, 0] else properties
  let second := properties.getD 1 0
  let ivSize := (((first >>> 6) &&& (1 : UInt8)) + (second &&& 15)).toNat
  let saltSize := (((first >>> 7) &&& (1 : UInt8)) + (second >>> 4)).toNat
  Result.rejectIf (2 + saltSize + ivSize > properties.length)
    (.other "Salt size + IV size too long")
  let salt := (properties.drop 2).take saltSize
  let iv := (properties.drop (2 + saltSize)).take ivSize
  pure (first &&& 63, salt, iv ++ List.replicate (16 - ivSize) 0)

/-- The key of the raw mode: the salt and the password, cut or filled to thirty-two bytes. -/
def rawKey (salt password : List UInt8) : List UInt8 :=
  let key := salt ++ password.take (32 - salt.length)
  key ++ List.replicate (32 - key.length) 0

def getAesKey (sha : Sha256) (password properties : List UInt8) (maxCyclesPower : UInt8)
    (maxKdfRounds : UInt64) (cache : KeyCache) : Result (List UInt8 × List UInt8) × KeyCache :=
  match aesKeyParts properties with
  | .error fault => (.error fault, cache)
  | .ok (power, salt, iv) =>
      let cap := min maxCyclesPower.toNat maxAesCyclesPower
      if password.isEmpty then (Result.fail .passwordRequired, cache)
      else if power = 0x3F then (.ok (rawKey salt password, iv), cache)
      else if power.toNat > cap then
        (Result.fail (.limitExceeded .aesCyclesPower cap power.toNat), cache)
      else
        let (key, cache) := deriveKeyWithBudget sha password power salt maxKdfRounds cache
        (key.map fun key => (key, iv), cache)

/-- A call of `derive_key_with_budget`, with a power that `get_aes_key` lets through. -/
structure KeyRequest where
  power : UInt8
  salt : List UInt8
  maxRounds : UInt64
  admitted : power.toNat ≤ maxAesCyclesPower

namespace KeyRequest

variable (sha : Sha256) (password : List UInt8)

def derive (req : KeyRequest) (cache : KeyCache) : Result (List UInt8) × KeyCache :=
  deriveKeyWithBudget sha password req.power req.salt req.maxRounds cache

def rounds (req : KeyRequest) : Nat := 2 ^ req.power.toNat

def chargedBy (req : KeyRequest) (cache : KeyCache) : Bool :=
  (cache.hit req.power req.salt).isNone && (req.derive sha password cache).1.isOk

end KeyRequest

namespace KeyCache

variable (sha : Sha256) (password : List UInt8)

def step (cache : KeyCache) (req : KeyRequest) : Option KeyCache :=
  some (req.derive sha password cache).2

def chargedRequests : KeyCache → List KeyRequest → List KeyRequest
  | _, [] => []
  | cache, req :: reqs =>
      let rest := chargedRequests (req.derive sha password cache).2 reqs
      if req.chargedBy sha password cache then req :: rest else rest

def Sound (cache : KeyCache) : Prop :=
  ∀ cached, cache.key = some cached →
    cached.key = deriveKey sha cached.salt password cached.power

end KeyCache

structure KeyRequest.Obeys (sha : Sha256) (password : List UInt8) (req : KeyRequest)
    (before after : KeyCache) (answer : Result (List UInt8)) : Prop where
  /-- A hit costs nothing. -/
  hit : (before.hit req.power req.salt).isSome = true → after = before ∧ answer.isOk = true
  refused : ∀ fault, answer = .error fault → after = before
  key : ∀ key, answer = .ok key → key = deriveKey sha req.salt password req.power
  /-- The counter is only raised within the bound of the call. -/
  bounded : after.rounds ≠ before.rounds → after.rounds ≤ req.maxRounds

section

variable {sha : Sha256} {password : List UInt8}

theorem KeyCache.charge_eq_ok {cache : KeyCache} {power : UInt8} {maxRounds rounds : UInt64}
    (h : cache.charge power maxRounds = .ok rounds) :
    rounds.toNat = cache.rounds.toNat + 2 ^ power.toNat ∧ rounds ≤ maxRounds := by
  obtain ⟨total, htotal, h⟩ := Result.bind_eq_ok.mp h
  obtain ⟨_, hle, h⟩ := Result.bind_eq_ok.mp h
  obtain ⟨hlt, rfl⟩ := checkedAdd_eq_some.mp (Result.okOr_eq_ok.mp htotal)
  cases Result.pure_eq_ok.mp h
  have hexact := UInt64.toNat_ofNat_of_lt' hlt
  refine ⟨hexact, ?_⟩
  rw [UInt64.le_iff_toNat_le, hexact]
  exact Nat.not_lt.mp (Result.rejectIf_eq_ok.mp hle)

theorem KeyCache.Sound.of_hit {cache : KeyCache} (h : cache.Sound sha password) {power : UInt8}
    {salt : List UInt8} {cached : CachedKey} (hhit : cache.hit power salt = some cached) :
    cached.key = deriveKey sha salt password power := by
  obtain ⟨hkey, hsame⟩ := Option.filter_eq_some_iff.mp hhit
  simp only [Bool.and_eq_true, beq_iff_eq] at hsame
  rw [h cached hkey, hsame.1, hsame.2]

variable (sha password) in
theorem KeyRequest.derive_cases (req : KeyRequest) (cache : KeyCache) :
    (∃ cached, cache.hit req.power req.salt = some cached ∧
        req.derive sha password cache = (.ok cached.key, cache)) ∨
      cache.hit req.power req.salt = none ∧
        ((∃ fault, req.derive sha password cache = (.error fault, cache)) ∨
          ∃ after, req.derive sha password cache =
              (.ok (deriveKey sha req.salt password req.power), after) ∧
            after.Sound sha password ∧
            after.rounds.toNat = cache.rounds.toNat + req.rounds ∧
            after.rounds ≤ req.maxRounds) := by
  unfold KeyRequest.derive deriveKeyWithBudget
  cases hhit : cache.hit req.power req.salt with
  | some cached => exact Or.inl ⟨cached, rfl, rfl⟩
  | none =>
      refine Or.inr ⟨rfl, ?_⟩
      cases hcharge : cache.charge req.power req.maxRounds with
      | error fault => exact Or.inl ⟨fault, rfl⟩
      | ok rounds =>
          obtain ⟨hrounds, hle⟩ := KeyCache.charge_eq_ok hcharge
          refine Or.inr ⟨_, rfl, ?_, hrounds, hle⟩
          intro cached hcached
          cases hcached
          rfl

theorem KeyRequest.derive_sound {cache : KeyCache} (h : cache.Sound sha password)
    (req : KeyRequest) : (req.derive sha password cache).2.Sound sha password := by
  obtain ⟨cached, -, hcall⟩ | ⟨-, ⟨fault, hcall⟩ | ⟨after, hcall, hsound, -⟩⟩ :=
    KeyRequest.derive_cases sha password req cache
  · rw [hcall]
    exact h
  · rw [hcall]
    exact h
  · rw [hcall]
    exact hsound

theorem KeyRequest.obeys {cache : KeyCache} (h : cache.Sound sha password) (req : KeyRequest) :
    req.Obeys sha password cache (req.derive sha password cache).2
      (req.derive sha password cache).1 := by
  obtain ⟨cached, hhit, hcall⟩ | ⟨hmiss, ⟨fault, hcall⟩ | ⟨after, hcall, -, -, hle⟩⟩ :=
    KeyRequest.derive_cases sha password req cache
  · rw [hcall]
    constructor
    · exact fun _ => ⟨rfl, rfl⟩
    · exact fun _ hfault => nomatch hfault
    · rintro key ⟨⟩
      exact h.of_hit hhit
    · exact fun hraised => absurd rfl hraised
  · rw [hcall]
    constructor
    · simp [hmiss]
    · exact fun _ _ => rfl
    · exact fun _ hkey => nomatch hkey
    · exact fun hraised => absurd rfl hraised
  · rw [hcall]
    constructor
    · simp [hmiss]
    · exact fun _ hfault => nomatch hfault
    · rintro key ⟨⟩
      rfl
    · exact fun _ => hle

theorem getAesKey_cases (properties : List UInt8) (maxCyclesPower : UInt8)
    (maxKdfRounds : UInt64) (cache : KeyCache) :
    (getAesKey sha password properties maxCyclesPower maxKdfRounds cache).2 = cache ∨
      ∃ req : KeyRequest, req.maxRounds = maxKdfRounds ∧
        (getAesKey sha password properties maxCyclesPower maxKdfRounds cache).2 =
          (req.derive sha password cache).2 := by
  unfold getAesKey
  cases aesKeyParts properties with
  | error fault => exact Or.inl rfl
  | ok parts =>
      obtain ⟨power, salt, iv⟩ := parts
      dsimp only
      split_ifs with hempty hraw hcap
      · exact Or.inl rfl
      · exact Or.inl rfl
      · exact Or.inl rfl
      · have hadmitted : power.toNat ≤ maxAesCyclesPower :=
          Nat.le_trans (Nat.not_lt.mp hcap) (Nat.min_le_right _ _)
        exact Or.inr ⟨⟨power, salt, maxKdfRounds, hadmitted⟩, rfl, rfl⟩

theorem KeyRequest.derive_rounds (req : KeyRequest) (cache : KeyCache) :
    (req.derive sha password cache).2.rounds.toNat =
      cache.rounds.toNat + if req.chargedBy sha password cache then req.rounds else 0 := by
  unfold KeyRequest.chargedBy
  obtain ⟨cached, hhit, hcall⟩ | ⟨hmiss, ⟨fault, hcall⟩ | ⟨after, hcall, -, hrounds, -⟩⟩ :=
    KeyRequest.derive_cases sha password req cache
  · simp [hcall, hhit]
  · simp [hcall, hmiss, Except.isOk, Except.toBool]
  · simp [hcall, hmiss, Except.isOk, Except.toBool, hrounds]

end

namespace KeyCache

variable (sha : Sha256) (password : List UInt8)

theorem run_rounds {cache after : KeyCache} {reqs : List KeyRequest}
    (h : run (step sha password) cache reqs = some after) :
    after.rounds.toNat =
      cache.rounds.toNat +
        ((chargedRequests sha password cache reqs).map KeyRequest.rounds).sum := by
  induction reqs generalizing cache with
  | nil =>
      cases h
      rfl
  | cons req reqs ih =>
      rw [run_cons] at h
      rw [ih h, req.derive_rounds, chargedRequests]
      split
      · rw [List.map_cons, List.sum_cons, Nat.add_assoc]
      · rw [Nat.add_zero]

/-- Over every run of derivations the counter is the sum of what was charged, and each call
keeps to its bound and returns the key that an uncached derivation gives. -/
theorem run_obeys (reqs : List KeyRequest) :
    (∀ cache, run (step sha password) {} reqs = some cache →
        cache.rounds.toNat =
          ((chargedRequests sha password {} reqs).map KeyRequest.rounds).sum) ∧
      EveryStep (step sha password) {} reqs fun _ req before after =>
        req.Obeys sha password before after (req.derive sha password before).1 := by
  constructor
  · intro cache hrun
    rw [run_rounds sha password hrun]
    exact Nat.zero_add _
  · intro before req after hreqs cache cache' hbefore hstep
    have hsound : cache.Sound sha password := by
      apply EveryStep.invariant (I := fun _ cache => cache.Sound sha password) _ _ hreqs hbefore
      · intro cached hcached
        cases hcached
      · intro _ req _ _ t t' _ hstep hsound
        cases hstep
        exact req.derive_sound hsound
    cases hstep
    exact req.obeys hsound

end KeyCache

end Sevenz
