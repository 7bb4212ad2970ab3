import Sevenz.Error
import Sevenz.Encryption.CryptoBackend
import Sevenz.Lib.Delivery

/-!
# The AES decoder

`Aes256Sha256Decoder` of `encryption/aes.rs`, over any of the backends.  A read deciphers whole
blocks in the caller's buffer, or, where that holds less than a block, stages one; ciphertext
that fills no block is carried to the next read.
-/

namespace Sevenz

open Lib

inductive ReadFault where
  | io (error : IoError)
  | panic (violation : ContractViolation)
  deriving DecidableEq, Repr

def cryptoError : AesFault → ReadFault
  | .error error => .io (.other error.message)
  | .panic violation => .panic violation

def illegalBlockSize : ReadFault := .io (.other "IllegalBlockSize")

/-- `Aes256Sha256Decoder`, over a cipher and the reader below.  `plain` is what of the staged
plaintext is undelivered. -/
structure AesDecoder (κ σ : Type) where
  cipher : κ
  input : σ
  done : Bool := false
  carry : List UInt8 := []
  plain : List UInt8 := []
  pos : Nat := 0

inductive FillEnd where
  | full
  | ended
  | failed (fault : ReadFault)

def FillEnd.Of (fails : ReadFault → Prop) : FillEnd → List UInt8 → List UInt8 → Prop
  | .full, filled, _ => aesBlockLen ≤ filled.length
  | .ended, filled, rest => filled.length < aesBlockLen ∧ rest = []
  | .failed fault, filled, _ => filled.length < aesBlockLen ∧ fails fault

namespace AesDecoder

variable {κ σ : Type} (decrypt : κ → List UInt8 → ReadResult AesFault × κ)
  (read : ReadFn ReadFault σ)

/-- Reads after `filled` until that is a block, in a buffer with `room`.  Each read but the last
adds a byte, so there are no more rounds than bytes in a block. -/
def fill (room : Nat) : Nat → List UInt8 → σ → FillEnd × List UInt8 × σ
  | 0, filled, s => (.full, filled, s)
  | rounds + 1, filled, s =>
      if aesBlockLen ≤ filled.length then (.full, filled, s)
      else
        match read (room - filled.length) s with
        | (.error fault, s) => (.failed fault, filled, s)
        | (.ok [], s) => (.ended, filled, s)
        | (.ok bytes, s) => fill room rounds (filled ++ bytes) s

def finish (d : AesDecoder κ σ) : Except ReadFault Nat × AesDecoder κ σ :=
  (if d.carry.isEmpty then .ok 0 else .error illegalBlockSize, { d with done := true })

def fillOneBlock (d : AesDecoder κ σ) : Except ReadFault Nat × AesDecoder κ σ :=
  match fill read aesBlockLen aesBlockLen d.carry d.input with
  | (.failed fault, carry, input) => (.error fault, { d with carry, input })
  | (.ended, carry, input) => { d with carry, input : AesDecoder κ σ }.finish
  | (.full, block, input) =>
      match decrypt d.cipher block with
      | (.error fault, cipher) =>
          (.error (cryptoError fault), { d with cipher, input, carry := [] })
      | (.ok plain, cipher) => (.ok aesBlockLen, { d with cipher, input, carry := [], plain })

def drainPlain (buf : Nat) (d : AesDecoder κ σ) : List UInt8 × AesDecoder κ σ :=
  let piece := d.plain.take buf
  (piece, { d with plain := d.plain.drop buf, pos := d.pos + piece.length })

/-- The bulk path of `read`: the carried ciphertext is moved to the caller's buffer first. -/
def readBulk (buf : Nat) (d : AesDecoder κ σ) : ReadResult ReadFault × AesDecoder κ σ :=
  let capacity := buf - buf % aesBlockLen
  match fill read capacity aesBlockLen d.carry d.input with
  | (.failed fault, _, input) => (.error fault, { d with input, carry := [] })
  | (.ended, carry, input) =>
      let (answer, d) := { d with carry, input : AesDecoder κ σ }.finish
      (answer.map fun _ => [], d)
  | (.full, filled, input) =>
      let whole := filled.length - filled.length % aesBlockLen
      let carry := filled.drop whole
      match decrypt d.cipher (filled.take whole) with
      | (.error fault, cipher) => (.error (cryptoError fault), { d with cipher, input, carry })
      | (.ok plaintext, cipher) =>
          (.ok plaintext, { d with cipher, input, carry, pos := d.pos + whole })

def readInto : ReadFn ReadFault (AesDecoder κ σ) := fun buf d =>
  if buf = 0 then (.ok [], d)
  else if d.plain ≠ [] then
    let (piece, d) := d.drainPlain buf
    (.ok piece, d)
  else if d.done then (.ok [], d)
  else if buf < aesBlockLen then
    match d.fillOneBlock decrypt read with
    | (.error fault, d) => (.error fault, d)
    | (.ok 0, d) => (.ok [], d)
    | (.ok _, d) =>
        let (piece, d) := d.drainPlain buf
        (.ok piece, d)
  else d.readBulk decrypt read buf

def streamEnding (ciphertext : List UInt8) : Option ReadFault :=
  if aesBlockLen ∣ ciphertext.length then none else some illegalBlockSize

theorem streamEnding_append {xs : List UInt8} (h : aesBlockLen ∣ xs.length) (ys : List UInt8) :
    streamEnding (xs ++ ys) = streamEnding ys := by
  rw [streamEnding, streamEnding, List.length_append]
  simp only [Nat.dvd_add_right h]

/-- While a block is not full, the reader below fails with ciphertext at hand: `held` bytes
carried and what it has delivered since. -/
def FailsMidBlock (room : Nat) : Nat → Nat → σ → Prop
  | 0, _, _ => False
  | rounds + 1, held, s =>
      if aesBlockLen ≤ held then False
      else
        match read (room - held) s with
        | (.error _, _) => 0 < held
        | (.ok [], _) => False
        | (.ok bytes, s) => FailsMidBlock room rounds (held + bytes.length) s

/-- The read keeps the ciphertext at hand: it is made into less than a block, or it has staged
plaintext to deliver, or the reader below does not fail in the middle of a block. -/
def KeepsCiphertext (buf : Nat) (d : AesDecoder κ σ) : Prop :=
  d.plain = [] → d.done = false → aesBlockLen ≤ buf →
    ¬ FailsMidBlock read (buf - buf % aesBlockLen) aesBlockLen d.carry.length d.input

section

variable (aes : KeyedCipher aesBlockLen) (chain : κ → List UInt8) (Valid : κ → Prop)
  (Holds : List UInt8 → σ → Prop)

structure Holding (rest : List UInt8) (d : AesDecoder κ σ) : Prop where
  holds : Holds rest d.input
  valid : Valid d.cipher
  short : d.carry.length < aesBlockLen

def content (rest : List UInt8) (d : AesDecoder κ σ) : List UInt8 :=
  d.plain ++
    if d.done then []
    else cbcDecrypt aesBlockLen aes.decrypt (chain d.cipher) (d.carry ++ rest)

def ending (rest : List UInt8) (d : AesDecoder κ σ) : Option ReadFault :=
  if d.done then none else streamEnding (d.carry ++ rest)

def Left (left : List UInt8) (last : Option ReadFault) (d : AesDecoder κ σ) : Prop :=
  ∃ rest, d.Holding Valid Holds rest ∧ left = d.content aes chain rest ∧ last = d.ending rest

end

section

variable {decrypt read} {fails : ReadFault → Prop} {Holds : List UInt8 → σ → Prop}

theorem fill_cases (hinner : ServesUnless fails read Holds) (room rounds : Nat)
    {filled rest : List UInt8} {s : σ} (hroom : aesBlockLen ≤ room) (hs : Holds rest s)
    (hfits : filled.length ≤ room) (hrounds : aesBlockLen ≤ filled.length + rounds) :
    ∃ stop taken rest' s', fill read room rounds filled s = (stop, filled ++ taken, s') ∧
      rest = taken ++ rest' ∧ Holds rest' s' ∧ (filled ++ taken).length ≤ room ∧
      stop.Of fails (filled ++ taken) rest' := by
  induction rounds generalizing filled rest s with
  | zero =>
      refine ⟨.full, [], rest, s, ?_, rfl, hs, ?_, ?_⟩
      · rw [fill, List.append_nil]
      · rwa [List.append_nil]
      · rw [List.append_nil]
        exact hrounds
  | succ rounds ih =>
      rw [fill]
      by_cases hfull : aesBlockLen ≤ filled.length
      · refine ⟨.full, [], rest, s, ?_, rfl, hs, ?_, ?_⟩
        · rw [if_pos hfull, List.append_nil]
        · rwa [List.append_nil]
        · rw [List.append_nil]
          exact hfull
      · have hshort : filled.length < aesBlockLen := Nat.not_le.mp hfull
        have hpos : 0 < room - filled.length := Nat.sub_pos_of_lt (Nat.lt_of_lt_of_le hshort hroom)
        rw [if_neg hfull]
        rcases hinner _ rest s hpos hs with
          ⟨fault, s', hread, hfails, hs'⟩ | ⟨piece, rest', s', hread, rfl, hlength, hend, hs'⟩
        · refine ⟨.failed fault, [], rest, s', ?_, rfl, hs', ?_, ?_⟩
          · rw [hread, List.append_nil]
          · rwa [List.append_nil]
          · rw [List.append_nil]
            exact ⟨hshort, hfails⟩
        · cases piece with
          | nil =>
              obtain rfl := hend rfl
              refine ⟨.ended, [], [], s', ?_, rfl, hs', ?_, ?_⟩
              · rw [hread, List.append_nil]
              · rwa [List.append_nil]
              · rw [List.append_nil]
                exact ⟨hshort, rfl⟩
          | cons byte piece =>
              have hfits' : (filled ++ byte :: piece).length ≤ room := by
                rw [List.length_append]
                omega
              have hrounds' : aesBlockLen ≤ (filled ++ byte :: piece).length + rounds := by
                rw [List.length_append, List.length_cons]
                omega
              obtain ⟨stop, taken, rest'', s'', hfill, hrest, hs'', hle, hof⟩ :=
                ih hs' hfits' hrounds'
              rw [List.append_assoc] at hfill hle hof
              refine ⟨stop, byte :: piece ++ taken, rest'', s'', ?_, ?_, hs'', hle, hof⟩
              · rw [hread]
                exact hfill
              · rw [hrest, List.append_assoc]

theorem failsMidBlock_of_fill {room rounds : Nat} {filled filled' : List UInt8} {s s' : σ}
    {fault : ReadFault} (h : fill read room rounds filled s = (.failed fault, filled', s'))
    (hne : filled' ≠ []) : FailsMidBlock read room rounds filled.length s := by
  induction rounds generalizing filled s with
  | zero => cases h
  | succ rounds ih =>
      rw [fill] at h
      rw [FailsMidBlock]
      by_cases hfull : aesBlockLen ≤ filled.length
      · rw [if_pos hfull] at h
        cases h
      · rw [if_neg hfull] at h ⊢
        split at h
        · cases h
          exact List.length_pos_of_ne_nil hne
        · cases h
        · have hrest := ih h
          rw [List.length_append] at hrest
          exact hrest

variable {aes : KeyedCipher aesBlockLen} {refusal : AesFault} {chain : κ → List UInt8}
  {Valid : κ → Prop}

theorem deciphered (hcipher : DecryptsCbc decrypt aes refusal chain Valid) {cipher : κ}
    (hvalid : Valid cipher) {blocks : List UInt8} (hwhole : aesBlockLen ∣ blocks.length) :
    ∃ plaintext cipher', decrypt cipher blocks = (.ok plaintext, cipher') ∧ Valid cipher' ∧
      plaintext.length = blocks.length ∧ ∀ rest,
        cbcDecrypt aesBlockLen aes.decrypt (chain cipher) (blocks ++ rest) =
          plaintext ++ cbcDecrypt aesBlockLen aes.decrypt (chain cipher') rest := by
  obtain ⟨cipher', hstep, hchain, hvalid'⟩ := hcipher.whole cipher blocks hvalid hwhole
  have hiv := hcipher.chain_length cipher hvalid
  refine ⟨_, cipher', hstep, hvalid', ?_, fun rest => ?_⟩
  · exact cbcDecrypt_length aes.decrypt_length hiv hwhole
  · rw [cbcDecrypt_append aesBlockLen_pos hiv aes.decrypt hwhole, hchain]

variable (fails aes chain) in
theorem finish_answers (buf : Nat) {d : AesDecoder κ σ} (hd : d.Holding Valid Holds [])
    (hplain : d.plain = []) (hdone : d.done = false) {answer : Except ReadFault Nat}
    {d' : AesDecoder κ σ} (h : d.finish = (answer, d')) :
    Answers fails buf (d.content aes chain []) (d.ending []) (answer.map fun _ => [])
        (d'.content aes chain []) (d'.ending []) ∧
      d'.Holding Valid Holds [] ∧ ∀ n, answer = .ok n → n = 0 := by
  have hcontent : d.content aes chain [] = [] := by
    rw [content, hplain, hdone, List.append_nil]
    exact cbcDecrypt_of_lt aes.decrypt hd.short
  have hcontent' : d'.content aes chain [] = [] := by
    cases h
    simp [content, hplain]
  have hending' : d'.ending [] = none := by
    cases h
    rfl
  have hd' : d'.Holding Valid Holds [] := by
    cases h
    exact ⟨hd.holds, hd.valid, hd.short⟩
  rw [hcontent, hcontent', hending']
  by_cases hempty : d.carry = []
  · have hending : d.ending [] = none := by
      rw [ending, hdone, hempty]
      rfl
    have hanswer : answer = .ok 0 := by
      rw [finish, hempty] at h
      exact (Prod.mk.inj h).1.symm
    rw [hending, hanswer]
    exact ⟨.finished, hd', fun n hn => (Except.ok.inj hn).symm⟩
  · have hmisaligned : ¬ aesBlockLen ∣ (d.carry ++ []).length := by
      rw [List.append_nil]
      intro hdvd
      exact absurd (Nat.le_of_dvd (List.length_pos_of_ne_nil hempty) hdvd) (Nat.not_le.mpr hd.short)
    have hending : d.ending [] = some illegalBlockSize := by
      rw [ending, hdone, if_neg Bool.false_ne_true, streamEnding, if_neg hmisaligned]
    have hanswer : answer = .error illegalBlockSize := by
      rw [finish, if_neg (by simpa using hempty)] at h
      exact (Prod.mk.inj h).1.symm
    rw [hending, hanswer]
    exact ⟨.fail, hd', fun n hn => by cases hn⟩

variable (aes chain) in
theorem content_carried {rest taken rest' : List UInt8} {d : AesDecoder κ σ} (input : σ)
    (hrest : rest = taken ++ rest') :
    d.content aes chain rest =
        { d with input, carry := d.carry ++ taken : AesDecoder κ σ }.content aes chain rest' ∧
      d.ending rest =
        { d with input, carry := d.carry ++ taken : AesDecoder κ σ }.ending rest' := by
  subst hrest
  constructor
  · simp only [content, List.append_assoc]
  · simp only [ending, List.append_assoc]

theorem fillOneBlock_answers (hcipher : DecryptsCbc decrypt aes refusal chain Valid)
    (hinner : ServesUnless fails read Holds) (buf : Nat) {rest : List UInt8}
    {d d' : AesDecoder κ σ} (hd : d.Holding Valid Holds rest) (hplain : d.plain = [])
    (hdone : d.done = false) {answer : Except ReadFault Nat}
    (h : d.fillOneBlock decrypt read = (answer, d')) :
    ∃ rest', d'.Holding Valid Holds rest' ∧
      ((Answers fails buf (d.content aes chain rest) (d.ending rest) (answer.map fun _ => [])
          (d'.content aes chain rest') (d'.ending rest') ∧ ∀ n, answer = .ok n → n = 0) ∨
        (answer = .ok aesBlockLen ∧ d'.plain ≠ [] ∧
          d.content aes chain rest = d'.content aes chain rest' ∧
          d.ending rest = d'.ending rest')) := by
  obtain ⟨stop, taken, rest', input, hfill, hrest, hholds, hle, hof⟩ :=
    fill_cases hinner aesBlockLen aesBlockLen (Nat.le_refl _) hd.holds
      (Nat.le_of_lt hd.short) (Nat.le_add_left _ _)
  obtain ⟨hcontent, hending⟩ := content_carried aes chain (d := d) input hrest
  rw [fillOneBlock, hfill] at h
  cases stop with
  | failed fault =>
      cases h
      refine ⟨rest', ⟨hholds, hd.valid, hof.1⟩, Or.inl ⟨?_, fun n hn => by cases hn⟩⟩
      rw [← hcontent, ← hending]
      exact .pass hof.2
  | ended =>
      obtain ⟨hshort, rfl⟩ := hof
      have hd₁ : Holding Valid Holds [] { d with input, carry := d.carry ++ taken } :=
        ⟨hholds, hd.valid, hshort⟩
      have hfinish := finish_answers fails aes chain buf hd₁ hplain hdone h
      rw [hcontent, hending]
      exact ⟨[], hfinish.2.1, Or.inl ⟨hfinish.1, hfinish.2.2⟩⟩
  | full =>
      have hlength : (d.carry ++ taken).length = aesBlockLen := Nat.le_antisymm hle hof
      have hdvd : aesBlockLen ∣ (d.carry ++ taken).length := ⟨1, by rw [hlength, Nat.mul_one]⟩
      obtain ⟨plaintext, cipher, hdecrypt, hvalid, hplaintext, hall⟩ :=
        deciphered hcipher hd.valid hdvd
      dsimp only at h
      rw [hdecrypt] at h
      cases h
      refine ⟨rest', ⟨hholds, hvalid, aesBlockLen_pos⟩, Or.inr ⟨rfl, ?_, ?_, ?_⟩⟩
      · rintro rfl
        rw [hlength] at hplaintext
        exact absurd hplaintext (Nat.ne_of_lt aesBlockLen_pos)
      · rw [hcontent]
        simp [content, hplain, hdone, ← List.append_assoc, hall]
      · rw [hending]
        simp only [ending, hdone, Bool.false_eq_true, if_false, List.nil_append]
        exact streamEnding_append hdvd rest'

theorem le_capacity {buf : Nat} (h : aesBlockLen ≤ buf) :
    aesBlockLen ≤ buf - buf % aesBlockLen := by
  have hmod := Nat.mod_lt buf aesBlockLen_pos
  exact Nat.le_of_dvd (Nat.sub_pos_of_lt (Nat.lt_of_lt_of_le hmod h)) (Nat.dvd_sub_mod buf)

theorem readBulk_answers (hcipher : DecryptsCbc decrypt aes refusal chain Valid)
    (hinner : ServesUnless fails read Holds) {buf : Nat} (hbuf : aesBlockLen ≤ buf)
    {rest : List UInt8} {d d' : AesDecoder κ σ} (hd : d.Holding Valid Holds rest)
    (hplain : d.plain = []) (hdone : d.done = false) (hkeeps : d.KeepsCiphertext read buf)
    {answer : ReadResult ReadFault} (h : d.readBulk decrypt read buf = (answer, d')) :
    ∃ rest', d'.Holding Valid Holds rest' ∧
      Answers fails buf (d.content aes chain rest) (d.ending rest) answer
        (d'.content aes chain rest') (d'.ending rest') := by
  have hroom := le_capacity hbuf
  obtain ⟨stop, taken, rest', input, hfill, hrest, hholds, hle, hof⟩ :=
    fill_cases hinner (buf - buf % aesBlockLen) aesBlockLen hroom hd.holds
      (Nat.le_trans (Nat.le_of_lt hd.short) hroom) (Nat.le_add_left _ _)
  obtain ⟨hcontent, hending⟩ := content_carried aes chain (d := d) input hrest
  rw [readBulk] at h
  dsimp only at h
  rw [hfill] at h
  cases stop with
  | failed fault =>
      -- the reader below fails, but not in the middle of a block
      cases h
      have hnil : d.carry ++ taken = [] := by
        by_contra hne
        exact hkeeps hplain hdone hbuf (failsMidBlock_of_fill hfill hne)
      rw [hnil] at hcontent hending
      refine ⟨rest', ⟨hholds, hd.valid, aesBlockLen_pos⟩, ?_⟩
      rw [← hcontent, ← hending]
      exact .pass hof.2
  | ended =>
      obtain ⟨hshort, rfl⟩ := hof
      obtain ⟨answer', d₁, hfinish⟩ : ∃ answer' d₁,
          { d with input, carry := d.carry ++ taken : AesDecoder κ σ }.finish = (answer', d₁) :=
        ⟨_, _, rfl⟩
      dsimp only at h
      rw [hfinish] at h
      cases h
      have hd₁ : Holding Valid Holds [] { d with input, carry := d.carry ++ taken } :=
        ⟨hholds, hd.valid, hshort⟩
      have hanswers := finish_answers fails aes chain buf hd₁ hplain hdone hfinish
      rw [hcontent, hending]
      exact ⟨[], hanswers.2.1, hanswers.1⟩
  | full =>
      obtain ⟨filled, hfilled⟩ : ∃ filled, filled = d.carry ++ taken := ⟨_, rfl⟩
      obtain ⟨whole, hwhole⟩ : ∃ whole, whole = filled.length - filled.length % aesBlockLen :=
        ⟨_, rfl⟩
      have hfull : aesBlockLen ≤ filled.length := hfilled ▸ hof
      have hmod := Nat.mod_lt filled.length aesBlockLen_pos
      have htake : (filled.take whole).length = whole := by
        rw [List.length_take]
        omega
      have hdvd : aesBlockLen ∣ (filled.take whole).length := by
        rw [htake, hwhole]
        exact Nat.dvd_sub_mod filled.length
      obtain ⟨plaintext, cipher, hdecrypt, hvalid, hplaintext, hall⟩ :=
        deciphered hcipher hd.valid hdvd
      dsimp only at h
      rw [← hfilled, ← hwhole, hdecrypt] at h
      cases h
      have hcarry : (filled.drop whole).length < aesBlockLen := by
        rw [List.length_drop]
        omega
      refine ⟨rest', ⟨hholds, hvalid, hcarry⟩, ?_⟩
      have hsplit : filled ++ rest' = filled.take whole ++ (filled.drop whole ++ rest') := by
        rw [← List.append_assoc, List.take_append_drop]
      obtain ⟨d₁, hd₁⟩ : ∃ d₁ : AesDecoder κ σ, d₁ =
          { d with cipher, input, carry := filled.drop whole, pos := d.pos + whole } := ⟨_, rfl⟩
      have hleft : d.content aes chain rest = plaintext ++ d₁.content aes chain rest' := by
        rw [hcontent, hd₁]
        simp [content, hplain, hdone, ← hfilled, hsplit, hall]
      have hlast : d.ending rest = d₁.ending rest' := by
        rw [hending, hd₁]
        simp only [ending, hdone, Bool.false_eq_true, if_false, ← hfilled, hsplit]
        exact streamEnding_append hdvd _
      rw [hleft, hlast, ← hd₁]
      rw [← hfilled] at hle
      apply Answers.piece
      · intro hnil
        rw [hnil, htake] at hplaintext
        change 0 = whole at hplaintext
        omega
      · rw [hplaintext, htake]
        omega

variable (fails aes chain) in
theorem drainPlain_answers {buf : Nat} (hbuf : 0 < buf) {rest : List UInt8}
    {d d' : AesDecoder κ σ} (hd : d.Holding Valid Holds rest) (hplain : d.plain ≠ [])
    {piece : List UInt8} (h : d.drainPlain buf = (piece, d')) :
    d'.Holding Valid Holds rest ∧
      Answers fails buf (d.content aes chain rest) (d.ending rest) (.ok piece)
        (d'.content aes chain rest) (d'.ending rest) := by
  cases h
  refine ⟨⟨hd.holds, hd.valid, hd.short⟩, ?_⟩
  have hsplit : d.content aes chain rest =
      d.plain.take buf ++ (d.drainPlain buf).2.content aes chain rest := by
    unfold content drainPlain
    dsimp only
    rw [← List.append_assoc, List.take_append_drop]
  rw [hsplit]
  apply Answers.piece
  · rw [ne_eq, List.take_eq_nil_iff]
    exact not_or.mpr ⟨Nat.ne_of_gt hbuf, hplain⟩
  · exact List.length_take_le buf d.plain

theorem answersWhere (hcipher : DecryptsCbc decrypt aes refusal chain Valid)
    (hinner : ServesUnless fails read Holds) :
    AnswersWhere fails (fun buf d => d.KeepsCiphertext read buf) (readInto decrypt read)
      (Left aes chain Valid Holds) := by
  rintro buf left last d d' answer hkeeps ⟨rest, hd, rfl, rfl⟩ h
  rw [readInto] at h
  by_cases hbuf : buf = 0
  · rw [if_pos hbuf] at h
    cases h
    exact ⟨_, _, .idle hbuf, rest, hd, rfl, rfl⟩
  rw [if_neg hbuf] at h
  have hroom : 0 < buf := Nat.pos_of_ne_zero hbuf
  by_cases hplain : d.plain = []
  · rw [if_neg (not_not.mpr hplain)] at h
    cases hdone : d.done with
    | true =>
        rw [hdone, if_pos rfl] at h
        cases h
        have hcontent : d.content aes chain rest = [] := by
          rw [content, hplain, hdone]
          rfl
        have hending : d.ending rest = none := by
          rw [ending, hdone]
          rfl
        refine ⟨[], none, ?_, rest, hd, hcontent.symm, hending.symm⟩
        rw [hcontent, hending]
        exact .finished
    | false =>
        rw [hdone, if_neg Bool.false_ne_true] at h
        by_cases hsmall : buf < aesBlockLen
        · rw [if_pos hsmall] at h
          obtain ⟨size, d₁, hfill⟩ : ∃ size d₁, d.fillOneBlock decrypt read = (size, d₁) :=
            ⟨_, _, rfl⟩
          obtain ⟨rest', hd₁, hstep⟩ :=
            fillOneBlock_answers hcipher hinner buf hd hplain hdone hfill
          rw [hfill] at h
          cases size with
          | error fault =>
              cases h
              rcases hstep with ⟨hanswers, -⟩ | ⟨hok, -⟩
              · exact ⟨_, _, hanswers, rest', hd₁, rfl, rfl⟩
              · cases hok
          | ok size =>
              rcases hstep with ⟨hanswers, hzero⟩ | ⟨hok, hne, hcontent, hending⟩
              · obtain rfl := hzero size rfl
                cases h
                exact ⟨_, _, hanswers, rest', hd₁, rfl, rfl⟩
              · cases hok
                obtain ⟨piece, d₂, hdrain⟩ : ∃ piece d₂, d₁.drainPlain buf = (piece, d₂) :=
                  ⟨_, _, rfl⟩
                obtain ⟨hd₂, hanswers⟩ :=
                  drainPlain_answers fails aes chain hroom hd₁ hne hdrain
                rw [hcontent, hending]
                cases hdrain
                cases h
                exact ⟨_, _, hanswers, rest', hd₂, rfl, rfl⟩
        · rw [if_neg hsmall] at h
          obtain ⟨rest', hd', hanswers⟩ := readBulk_answers hcipher hinner
            (Nat.not_lt.mp hsmall) hd hplain hdone hkeeps h
          exact ⟨_, _, hanswers, rest', hd', rfl, rfl⟩
  · rw [if_pos hplain] at h
    obtain ⟨piece, d₂, hdrain⟩ : ∃ piece d₂, d.drainPlain buf = (piece, d₂) := ⟨_, _, rfl⟩
    obtain ⟨hd₂, hanswers⟩ := drainPlain_answers fails aes chain hroom hd hplain hdrain
    rw [hdrain] at h
    cases h
    exact ⟨_, _, hanswers, rest, hd₂, rfl, rfl⟩

/-- A failed read has delivered nothing and deciphered nothing, and carries, after what it
carried before, what it was given. -/
def Intact (Holds : List UInt8 → σ → Prop) (rest : List UInt8) (d d' : AesDecoder κ σ) : Prop :=
  d'.cipher = d.cipher ∧ d'.plain = d.plain ∧
    ∃ fetched rest', rest = fetched ++ rest' ∧ Holds rest' d'.input ∧ d'.carry = d.carry ++ fetched

theorem fillOneBlock_intact (hcipher : DecryptsCbc decrypt aes refusal chain Valid)
    (hinner : ServesUnless fails read Holds) {rest : List UInt8} {d d' : AesDecoder κ σ}
    (hd : d.Holding Valid Holds rest) {fault : ReadFault}
    (h : d.fillOneBlock decrypt read = (.error fault, d')) : d.Intact Holds rest d' := by
  obtain ⟨stop, taken, rest', input, hfill, hrest, hholds, hle, hof⟩ :=
    fill_cases hinner aesBlockLen aesBlockLen (Nat.le_refl _) hd.holds (Nat.le_of_lt hd.short)
      (Nat.le_add_left _ _)
  rw [fillOneBlock, hfill] at h
  cases stop with
  | failed _ =>
      cases h
      exact ⟨rfl, rfl, taken, rest', hrest, hholds, rfl⟩
  | ended =>
      obtain ⟨-, rfl⟩ := Prod.mk.inj h
      exact ⟨rfl, rfl, taken, rest', hrest, hholds, rfl⟩
  | full =>
      have hlength : (d.carry ++ taken).length = aesBlockLen := Nat.le_antisymm hle hof
      obtain ⟨_, _, hdecrypt, -⟩ :=
        deciphered hcipher hd.valid ⟨1, by rw [hlength, Nat.mul_one]⟩
      dsimp only at h
      rw [hdecrypt] at h
      cases h

theorem readBulk_intact (hcipher : DecryptsCbc decrypt aes refusal chain Valid)
    (hinner : ServesUnless fails read Holds) {buf : Nat} (hbuf : aesBlockLen ≤ buf)
    {rest : List UInt8} {d d' : AesDecoder κ σ} (hd : d.Holding Valid Holds rest)
    (hplain : d.plain = []) (hdone : d.done = false) (hkeeps : d.KeepsCiphertext read buf)
    {fault : ReadFault} (h : d.readBulk decrypt read buf = (.error fault, d')) :
    d.Intact Holds rest d' := by
  obtain ⟨stop, taken, rest', input, hfill, hrest, hholds, -, -⟩ :=
    fill_cases hinner (buf - buf % aesBlockLen) aesBlockLen (le_capacity hbuf) hd.holds
      (Nat.le_trans (Nat.le_of_lt hd.short) (le_capacity hbuf)) (Nat.le_add_left _ _)
  rw [readBulk] at h
  dsimp only at h
  rw [hfill] at h
  cases stop with
  | failed _ =>
      cases h
      have hnil : d.carry ++ taken = [] := by
        by_contra hne
        exact hkeeps hplain hdone hbuf (failsMidBlock_of_fill hfill hne)
      exact ⟨rfl, rfl, taken, rest', hrest, hholds, hnil.symm⟩
  | ended =>
      obtain ⟨-, rfl⟩ := Prod.mk.inj h
      exact ⟨rfl, rfl, taken, rest', hrest, hholds, rfl⟩
  | full =>
      have hdvd : aesBlockLen ∣ ((d.carry ++ taken).take ((d.carry ++ taken).length -
          (d.carry ++ taken).length % aesBlockLen)).length := by
        rw [List.length_take, Nat.min_eq_left (Nat.sub_le _ _)]
        exact Nat.dvd_sub_mod _
      obtain ⟨_, _, hdecrypt, -⟩ := deciphered hcipher hd.valid hdvd
      dsimp only at h
      rw [hdecrypt] at h
      cases h

theorem readInto_intact (hcipher : DecryptsCbc decrypt aes refusal chain Valid)
    (hinner : ServesUnless fails read Holds) {buf : Nat} {rest : List UInt8}
    {d d' : AesDecoder κ σ} (hd : d.Holding Valid Holds rest)
    (hkeeps : d.KeepsCiphertext read buf) {fault : ReadFault}
    (h : d.readInto decrypt read buf = (.error fault, d')) : d.Intact Holds rest d' := by
  rw [readInto] at h
  split_ifs at h with hbuf hplain hdone hsmall
  · cases h
  · cases h
  · cases h
  · split at h
    · rename_i hfill
      cases h
      exact fillOneBlock_intact hcipher hinner hd hfill
    · cases h
    · cases h
  · exact readBulk_intact hcipher hinner (Nat.not_lt.mp hsmall) hd (not_not.mp hplain)
      (by simpa using hdone) hkeeps h

theorem not_failsMidBlock (hinner : Serves read Holds) {room rounds held : Nat}
    (hroom : aesBlockLen ≤ room) {rest : List UInt8} {s : σ} (hs : Holds rest s) :
    ¬ FailsMidBlock read room rounds held s := by
  induction rounds generalizing held rest s with
  | zero => exact id
  | succ rounds ih =>
      rw [FailsMidBlock]
      by_cases hfull : aesBlockLen ≤ held
      · rw [if_pos hfull]
        exact id
      · have hpos : 0 < room - held :=
          Nat.sub_pos_of_lt (Nat.lt_of_lt_of_le (Nat.not_le.mp hfull) hroom)
        obtain ⟨piece, rest', s', hread, -, -, -, hs'⟩ := hinner _ rest s hpos hs
        rw [if_neg hfull, hread]
        cases piece with
        | nil => exact id
        | cons _ _ => exact ih hs'

theorem left_new {cipher : κ} (hvalid : Valid cipher) {ciphertext : List UInt8} {input : σ}
    (hinput : Holds ciphertext input) :
    Left aes chain Valid Holds
      (cbcDecrypt aesBlockLen aes.decrypt (chain cipher) ciphertext) (streamEnding ciphertext)
      { cipher, input } :=
  ⟨ciphertext, ⟨hinput, hvalid, aesBlockLen_pos⟩, rfl, rfl⟩

/-- However the reader below cuts the ciphertext and whatever buffers the caller reads into, the
decoder delivers the decryption of its whole blocks in order, and then ends, or fails once where
the last block is not whole. -/
theorem delivers (hcipher : DecryptsCbc decrypt aes refusal chain Valid)
    (hinner : Serves read Holds) {cipher : κ} (hvalid : Valid cipher) {ciphertext : List UInt8}
    {input : σ} (hinput : Holds ciphertext input) {records : List (ReadRecord ReadFault)}
    {d : AesDecoder κ σ} (htrace : Trace (readInto decrypt read) { cipher, input } records d) :
    Delivery (fun _ => False) (cbcDecrypt aesBlockLen aes.decrypt (chain cipher) ciphertext)
        (streamEnding ciphertext) records ∧
      ((cbcDecrypt aesBlockLen aes.decrypt (chain cipher) ciphertext).length <
          (roomyReads records).length →
        delivered records = cbcDecrypt aesBlockLen aes.decrypt (chain cipher) ciphertext ∧
          readErrors records = (streamEnding ciphertext).toList) := by
  have hstep : AnswersWhere (fun _ => False) (fun _ _ => True) (readInto decrypt read)
      (Left aes chain Valid Holds) := by
    intro buf left last d d' answer _ hleft h
    have hkeeps : d.KeepsCiphertext read buf := by
      obtain ⟨rest, hd, -⟩ := hleft
      intro _ _ hbuf
      exact not_failsMidBlock hinner (le_capacity hbuf) hd.holds
    exact answersWhere hcipher hinner.unless hkeeps hleft h
  have hdelivery := (hstep.delivery (left_new hvalid hinput) htrace.traceWhere).1
  exact ⟨hdelivery, hdelivery.complete⟩

/-- Where no read of the run breaks off with ciphertext at hand in the caller's buffer, errors
from below cost nothing: what the run has delivered and what the decoder has left are together
the plaintext, enough reads that succeed deliver all of it, and a read that fails next has
delivered nothing and keeps the cipher, and carries all it was given. -/
theorem resumes (hcipher : DecryptsCbc decrypt aes refusal chain Valid)
    (hinner : ServesUnless fails read Holds) {cipher : κ} (hvalid : Valid cipher)
    {ciphertext : List UInt8} {input : σ} (hinput : Holds ciphertext input)
    {records : List (ReadRecord ReadFault)} {d : AesDecoder κ σ}
    (htrace : TraceWhere (fun buf d => d.KeepsCiphertext read buf) (readInto decrypt read)
      { cipher, input } records d) :
    Delivery fails (cbcDecrypt aesBlockLen aes.decrypt (chain cipher) ciphertext)
        (streamEnding ciphertext) records ∧
      ((cbcDecrypt aesBlockLen aes.decrypt (chain cipher) ciphertext).length ≤
          (goodReads records).length →
        delivered records = cbcDecrypt aesBlockLen aes.decrypt (chain cipher) ciphertext) ∧
      ∃ rest, d.Holding Valid Holds rest ∧
        cbcDecrypt aesBlockLen aes.decrypt (chain cipher) ciphertext =
          delivered records ++ d.content aes chain rest ∧
        ∀ buf fault d', d.KeepsCiphertext read buf →
          readInto decrypt read buf d = (.error fault, d') → d.Intact Holds rest d' := by
  obtain ⟨hdelivery, left, last, ⟨rest, hd, rfl, rfl⟩, hcontent⟩ :=
    (answersWhere hcipher hinner).delivery (left_new hvalid hinput) htrace
  refine ⟨hdelivery, hdelivery.delivered_eq, rest, hd, hcontent, ?_⟩
  intro buf fault d' hkeeps h
  exact readInto_intact hcipher hinner hd hkeeps h

end

end AesDecoder

/-! The first two blocks of the vector, read in pieces. -/

namespace NistVector

def ciphertextBytes : List UInt8 := ciphertext.flatMap Subtype.val

def cipher : AwsLcAes256Cbc awsLc where
  key := aes key
  iv := iv

theorem decryptsUnder : awsLc.DecryptsUnder cipher.key (aes key) := fun _ _ _ => rfl

def pieces : List (ReadResult ReadFault) :=
  [.ok (ciphertextBytes.take 5), .ok ((ciphertextBytes.drop 5).take 5),
    .ok ((ciphertextBytes.drop 10).take 20), .ok (ciphertextBytes.drop 30 ++ [1])]

def decoder (answers : List (ReadResult ReadFault)) :
    AesDecoder (AwsLcAes256Cbc awsLc) (List (ReadResult ReadFault)) where
  cipher := cipher
  input := answers

end NistVector

theorem nistVector_delivers :
    ∃ records d, Trace (AesDecoder.readInto AwsLcAes256Cbc.decrypt scriptedRead)
        (NistVector.decoder NistVector.pieces) records d ∧
      delivered records = NistVector.content ∧ readErrors records = [illegalBlockSize] := by
  have hinput : Scripted (fun _ => False) (NistVector.ciphertextBytes ++ [1]) NistVector.pieces :=
    ⟨by decide +kernel, by decide +kernel⟩
  have htrace := readInTurn_trace (AesDecoder.readInto AwsLcAes256Cbc.decrypt scriptedRead)
    ([3, 40, 0, 17] ++ List.replicate 40 7) (NistVector.decoder NistVector.pieces)
  obtain ⟨-, hcomplete⟩ := AesDecoder.delivers
    (AwsLcAes256Cbc.decryptsCbc NistVector.awsLc (NistVector.aes NistVector.key))
    (scriptedRead_serves _).serves NistVector.decryptsUnder hinput htrace
  have hplain : cbcDecrypt aesBlockLen (NistVector.aes NistVector.key).decrypt
      NistVector.cipher.iv.val (NistVector.ciphertextBytes ++ [1]) = NistVector.content := by
    decide +kernel
  rw [hplain] at hcomplete
  obtain ⟨hdelivered, herrors⟩ := hcomplete (by decide +kernel)
  refine ⟨_, _, htrace, hdelivered, ?_⟩
  rw [herrors]
  decide +kernel

def NistVector.interrupted : List (ReadResult ReadFault) :=
  [.error (.io .interrupted), .ok (ciphertextBytes.take 5), .error (.io .interrupted),
    .ok ((ciphertextBytes.drop 5).take 11), .error (.io .interrupted),
    .ok (ciphertextBytes.drop 16)]

theorem nistVector_resumes :
    ∃ records d, Trace (AesDecoder.readInto AwsLcAes256Cbc.decrypt scriptedRead)
        (NistVector.decoder NistVector.interrupted) records d ∧
      delivered records = NistVector.content := by
  have hinput : Scripted (· = .io .interrupted) NistVector.ciphertextBytes NistVector.interrupted :=
    ⟨by decide +kernel, by decide +kernel⟩
  have hbufs : ∀ buf ∈ List.replicate 40 7, ∀ d : AesDecoder (AwsLcAes256Cbc NistVector.awsLc) _,
      d.KeepsCiphertext scriptedRead buf := by
    intro buf hbuf d _ _ hle
    rw [List.eq_of_mem_replicate hbuf] at hle
    exact absurd hle (by decide)
  have htrace := readInTurn_traceWhere
    (AesDecoder.readInto AwsLcAes256Cbc.decrypt scriptedRead) hbufs
    (NistVector.decoder NistVector.interrupted)
  obtain ⟨-, hcomplete, -⟩ := AesDecoder.resumes
    (AwsLcAes256Cbc.decryptsCbc NistVector.awsLc (NistVector.aes NistVector.key))
    (scriptedRead_serves _) NistVector.decryptsUnder hinput htrace
  have hplain : cbcDecrypt aesBlockLen (NistVector.aes NistVector.key).decrypt
      NistVector.cipher.iv.val NistVector.ciphertextBytes = NistVector.content := by
    decide +kernel
  rw [hplain] at hcomplete
  exact ⟨_, _, readInTurn_trace _ _ _, hcomplete (by decide +kernel)⟩

def NistVector.brokenOff : List (ReadResult ReadFault) :=
  [.ok (ciphertextBytes.take 4), .error (.io .interrupted), .ok ((ciphertextBytes.drop 4).take 12)]

/-- A buffer of sixteen bytes loses the four: the retry is refused for the block's length. -/
theorem interruptedBlock_lost :
    Scripted (· = .io .interrupted) (NistVector.ciphertextBytes.take 16) NistVector.brokenOff ∧
      ∃ records d, Trace (AesDecoder.readInto AwsLcAes256Cbc.decrypt scriptedRead)
          (NistVector.decoder NistVector.brokenOff) records d ∧
        readErrors records = [.io .interrupted, illegalBlockSize] ∧
        ¬ Delivery (· = .io .interrupted)
          (cbcDecrypt aesBlockLen (NistVector.aes NistVector.key).decrypt NistVector.iv
            (NistVector.ciphertextBytes.take 16))
          (AesDecoder.streamEnding (NistVector.ciphertextBytes.take 16)) records := by
  have herrors : readErrors (readInTurn (AesDecoder.readInto AwsLcAes256Cbc.decrypt scriptedRead)
      [16, 16] (NistVector.decoder NistVector.brokenOff)).1 =
        [.io .interrupted, illegalBlockSize] := by
    decide +kernel
  refine ⟨⟨by decide +kernel, by decide +kernel⟩, _, _, readInTurn_trace _ [16, 16] _, herrors, ?_⟩
  intro h
  have hcases := h.passing_or_ending illegalBlockSize
    (herrors ▸ List.mem_cons_of_mem _ List.mem_cons_self)
  have hending : AesDecoder.streamEnding (NistVector.ciphertextBytes.take 16) = none := by
    decide +kernel
  rw [hending] at hcases
  exact hcases.elim (by decide) nofun

end Sevenz
