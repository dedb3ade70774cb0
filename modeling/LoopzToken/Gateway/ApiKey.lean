import LoopzToken.Lib.Hex
import LoopzToken.Lib.Split

/-!
# LoopzToken.Gateway.ApiKey

API keys, `sk-loopz_<public_id>_<secret>`: generating and parsing them, and
checking a secret against its stored HMAC.

HMAC-SHA256 is a parameter, any function from a key and a message to 32 bytes.
What `rand.Read` delivers is an argument of `generateKey`.
-/

namespace LoopzToken.Gateway

open Lib

/-! ### Keys -/

/-- `KeyPrefix`. -/
def keyPrefix : Bytes := utf8 "sk-loopz_"

/-- The byte `_`. -/
def underscore : UInt8 := 95

/-- `ErrInvalidKey`, and an error of the random source with its context. -/
inductive KeyError
  | invalidKey
  | generate (message : String)
  deriving DecidableEq, Repr

/-- The text of an error. -/
def KeyError.message : KeyError → String
  | .invalidKey => "invalid loopz api key"
  | .generate m => m

/-- `ParseKey`: the `public_id` and the secret. -/
def parseKey (raw : Bytes) : Except KeyError (Bytes × Bytes) :=
  if keyPrefix.isPrefixOf raw then
    match (raw.drop keyPrefix.length).splitOn underscore with
    | [publicID, secret] =>
        if publicID = [] ∨ secret = [] then .error .invalidKey else .ok (publicID, secret)
    | _ => .error .invalidKey
  else .error .invalidKey

/-- `ParseKey`, with its three results as they are returned: an error comes with two
empty strings. -/
def parseKeyResults (raw : Bytes) : Bytes × Bytes × Option KeyError :=
  if !keyPrefix.isPrefixOf raw then ([], [], some .invalidKey)
  else
    match (raw.drop keyPrefix.length).splitOn underscore with
    | [publicID, secret] =>
        if publicID = [] ∨ secret = [] then ([], [], some .invalidKey)
        else (publicID, secret, none)
    | _ => ([], [], some .invalidKey)

/-- Exactly `n` bytes. -/
abbrev Block (n : ℕ) := { bs : Bytes // bs.length = n }

/-- The outcomes of the two calls of `rand.Read`; the second is made when the
first has succeeded. -/
structure Draws where
  id : Except String (Block 8)
  secret : Except String (Block 24)

/-- A result of `GenerateKey`. -/
structure NewKey where
  publicID : Bytes
  secret : Bytes
  fullKey : Bytes
  deriving DecidableEq, Repr

/-- `GenerateKey`. -/
def generateKey (draws : Draws) : Except KeyError NewKey :=
  match draws.id with
  | .error err => .error (.generate ("generate public id: " ++ err))
  | .ok idBytes =>
    match draws.secret with
    | .error err => .error (.generate ("generate secret: " ++ err))
    | .ok secretBytes =>
        let publicID := Hex.encode idBytes
        let secret := Hex.encode secretBytes
        .ok ⟨publicID, secret, keyPrefix ++ publicID ++ [underscore] ++ secret⟩

/-! ### HMACs -/

section

variable (hmac : Bytes → Bytes → Block 32)

/-- `SecretHMAC`: the HMAC of the secret under the pepper, in hexadecimal. -/
def secretHMAC (secret pepper : Bytes) : Bytes := Hex.encode (hmac pepper secret)

/-- `VerifyHMAC`. -/
def verifyHMAC (secret pepper storedHMAC : Bytes) : Bool :=
  match Hex.decode (secretHMAC hmac secret pepper) with
  | none => false
  | some computed =>
    match Hex.decode storedHMAC with
    | none => false
    | some stored => computed = stored

end

/-! ### The grammar of keys -/

/-- A key, with its `public_id` and its secret. -/
structure IsKey (raw publicID secret : Bytes) : Prop where
  eq : raw = keyPrefix ++ publicID ++ [underscore] ++ secret
  publicID_ne_nil : publicID ≠ []
  secret_ne_nil : secret ≠ []
  underscore_not_mem_publicID : underscore ∉ publicID
  underscore_not_mem_secret : underscore ∉ secret

/-- `ParseKey` reads keys and nothing else. -/
theorem parseKey_eq_ok_iff {raw publicID secret : Bytes} :
    parseKey raw = .ok (publicID, secret) ↔ IsKey raw publicID secret := by
  unfold parseKey
  constructor
  · intro h
    split at h
    · rename_i hpre
      obtain ⟨rest, rfl⟩ := List.isPrefixOf_iff_prefix.mp hpre
      rw [List.drop_left] at h
      split at h
      · rename_i p s hsplit
        split at h
        · cases h
        · rename_i hne
          obtain ⟨rfl, rfl⟩ := Prod.mk.inj (Except.ok.inj h)
          obtain ⟨hp, hs⟩ := not_or.mp hne
          obtain ⟨rfl, hup, hus⟩ := splitOn_eq_two.mp hsplit
          exact ⟨by simp, hp, hs, hup, hus⟩
      · cases h
    · cases h
  · intro h
    obtain ⟨rfl, hp, hs, hup, hus⟩ := h
    have hsplit := splitOn_eq_two.mpr ⟨rfl, hup, hus⟩
    rw [if_pos (by simp [List.append_assoc]), List.append_assoc, List.append_assoc,
      List.drop_left, List.singleton_append, hsplit]
    exact if_neg (not_or.mpr ⟨hp, hs⟩)

/-- The two forms of `ParseKey` agree; it has one error. -/
theorem parseKeyResults_eq (raw : Bytes) :
    parseKeyResults raw =
      match parseKey raw with
      | .ok (publicID, secret) => (publicID, secret, none)
      | .error _ => ([], [], some .invalidKey) := by
  unfold parseKeyResults parseKey
  cases keyPrefix.isPrefixOf raw with
  | false => rfl
  | true =>
      simp only [Bool.not_true, Bool.false_eq_true, if_false, if_true]
      split
      · split <;> rfl
      · rfl

/-- **`ParseKey` accepts its grammar and inverts the construction of keys**, on every
byte string. -/
theorem parseKey_grammar (raw : Bytes) :
    (∀ publicID secret, parseKeyResults raw = (publicID, secret, none) ↔
      IsKey raw publicID secret) ∧
    ((∀ publicID secret, ¬ IsKey raw publicID secret) →
      parseKeyResults raw = ([], [], some .invalidKey)) ∧
    ∀ publicID secret, parseKeyResults raw = (publicID, secret, none) →
      keyPrefix ++ publicID ++ [underscore] ++ secret = raw ∧
      ∀ raw', parseKeyResults raw' = (publicID, secret, none) → raw' = raw := by
  have hiff : ∀ raw publicID secret, parseKeyResults raw = (publicID, secret, none) ↔
      IsKey raw publicID secret := by
    intro raw publicID secret
    rw [← parseKey_eq_ok_iff, parseKeyResults_eq]
    cases parseKey raw <;> simp [Prod.ext_iff]
  refine ⟨hiff raw, fun hno => ?_, fun publicID secret h => ?_⟩
  · rw [parseKeyResults_eq]
    cases hkey : parseKey raw with
    | ok r => exact absurd (parseKey_eq_ok_iff.mp hkey) (hno r.1 r.2)
    | error err => rfl
  · have hraw := ((hiff raw publicID secret).mp h).eq
    exact ⟨hraw.symm, fun raw' h' => ((hiff raw' publicID secret).mp h').eq.trans hraw.symm⟩

theorem parseKey_grammar_abc :
    keyPrefix ++ utf8 "ab" ++ [underscore] ++ utf8 "c" = utf8 "sk-loopz_ab_c" ∧
      parseKeyResults (utf8 "sk-loopz_ab_c_") = ([], [], some .invalidKey) := by
  have hok : parseKeyResults (utf8 "sk-loopz_ab_c") = (utf8 "ab", utf8 "c", none) := by
    decide +kernel
  refine ⟨((parseKey_grammar _).2.2 _ _ hok).1, (parseKey_grammar _).2.1 fun p s hkey => ?_⟩
  have hp := parseKey_eq_ok_iff.mpr hkey
  have herr : parseKey (utf8 "sk-loopz_ab_c_") = .error .invalidKey := by decide +kernel
  rw [herr] at hp
  cases hp

/-! ### Parsing what was generated -/

theorem underscore_not_mem_encode (bs : Bytes) : underscore ∉ Hex.encode bs := by
  intro h
  have hval := (Hex.spells_encode bs).value _ h
  exact absurd hval (by decide)

theorem encode_ne_nil {n : ℕ} (bs : Block (n + 1)) : Hex.encode bs ≠ [] := by
  intro h
  have hlen := (Hex.spells_encode bs).length
  rw [h, bs.2] at hlen
  exact absurd hlen (by simp)

/-- A key splits at its one separator. -/
theorem parseKey_append {publicID secret : Bytes} (hid : underscore ∉ publicID)
    (hs : underscore ∉ secret) (hid' : publicID ≠ []) (hs' : secret ≠ []) :
    parseKey (keyPrefix ++ publicID ++ [underscore] ++ secret) = .ok (publicID, secret) :=
  parseKey_eq_ok_iff.mpr ⟨rfl, hid', hs', hid, hs⟩

example : parseKey (utf8 "sk-loopz_ab_c_d") = .error .invalidKey := by decide +kernel

/-- What a successful call drew. -/
theorem generateKey_ok {draws : Draws} {key : NewKey} (h : generateKey draws = .ok key) :
    ∃ idBytes secretBytes, draws.id = .ok idBytes ∧ draws.secret = .ok secretBytes ∧
      key.publicID = Hex.encode idBytes ∧ key.secret = Hex.encode secretBytes ∧
      key.fullKey = keyPrefix ++ key.publicID ++ [underscore] ++ key.secret := by
  unfold generateKey at h
  split at h
  · cases h
  · rename_i idBytes hid
    split at h
    · cases h
    · rename_i secretBytes hsecret
      obtain rfl := Except.ok.inj h
      exact ⟨idBytes, secretBytes, hid, hsecret, rfl, rfl, rfl⟩

theorem parseKey_generateKey {draws : Draws} {key : NewKey} (h : generateKey draws = .ok key) :
    parseKey key.fullKey = .ok (key.publicID, key.secret) := by
  obtain ⟨idBytes, secretBytes, -, -, hid, hsecret, hfull⟩ := generateKey_ok h
  rw [hfull, hid, hsecret]
  exact parseKey_append (underscore_not_mem_encode _) (underscore_not_mem_encode _)
    (encode_ne_nil _) (encode_ne_nil _)

/-- Equal keys come from equal draws. -/
theorem generateKey_injective {draws draws' : Draws} {key key' : NewKey}
    (h : generateKey draws = .ok key) (h' : generateKey draws' = .ok key')
    (heq : key.fullKey = key'.fullKey) : draws = draws' := by
  have hparse := parseKey_generateKey h
  rw [heq, parseKey_generateKey h'] at hparse
  obtain ⟨hid, hsecret⟩ := Prod.mk.inj (Except.ok.inj hparse)
  obtain ⟨a, b, ha, hb, hida, hsb, -⟩ := generateKey_ok h
  obtain ⟨a', b', ha', hb', hida', hsb', -⟩ := generateKey_ok h'
  have hid' : a' = a := Subtype.ext (Hex.encode_injective (hida'.symm.trans (hid.trans hida)))
  have hs' : b' = b := Subtype.ext (Hex.encode_injective (hsb'.symm.trans (hsecret.trans hsb)))
  cases draws
  cases draws'
  simp_all

/-! ### Verifying -/

/-- **What `VerifyHMAC` accepts**: the hexadecimal spellings of the HMAC. -/
theorem verifyHMAC_iff (hmac : Bytes → Bytes → Block 32) (secret pepper stored : Bytes) :
    verifyHMAC hmac secret pepper stored = true ↔
      Hex.Spells (hmac pepper secret) stored := by
  rw [← Hex.decode_iff]
  simp only [verifyHMAC, secretHMAC, Hex.decode_encode]
  cases Hex.decode stored with
  | none => simp
  | some bs => simp [eq_comm]

/-- A text of another length, or with a byte that is no digit, is refused. -/
theorem verifyHMAC_malformed (hmac : Bytes → Bytes → Block 32) {secret pepper stored : Bytes}
    (h : stored.length ≠ 64 ∨ ∃ c ∈ stored, Hex.value c = none) :
    verifyHMAC hmac secret pepper stored = false := by
  refine Bool.eq_false_iff.mpr fun hv => ?_
  have hspell := (verifyHMAC_iff ..).mp hv
  rcases h with hlen | ⟨c, hc, hval⟩
  · exact hlen (by rw [hspell.length, (hmac pepper secret).2])
  · have := hspell.value c hc
    simp [hval] at this

/-- **The life cycle of an API key**, for every outcome of the random source,
every pepper and every stored text. -/
theorem apiKey_life_cycle (hmac : Bytes → Bytes → Block 32) :
    (∀ draws key pepper, generateKey draws = .ok key →
      parseKey key.fullKey = .ok (key.publicID, key.secret) ∧
      verifyHMAC hmac key.secret pepper (secretHMAC hmac key.secret pepper) = true) ∧
    (∀ draws draws' key key', generateKey draws = .ok key → generateKey draws' = .ok key' →
      key.fullKey = key'.fullKey → draws = draws') ∧
    (∀ secret pepper stored,
      (verifyHMAC hmac secret pepper stored = true ↔ Hex.Spells (hmac pepper secret) stored) ∧
      (stored.length ≠ 64 ∨ (∃ c ∈ stored, Hex.value c = none) →
        verifyHMAC hmac secret pepper stored = false)) := by
  refine ⟨fun draws key pepper h => ⟨parseKey_generateKey h, ?_⟩,
    fun draws draws' key key' => generateKey_injective,
    fun secret pepper stored => ⟨verifyHMAC_iff .., verifyHMAC_malformed hmac⟩⟩
  exact (verifyHMAC_iff ..).mpr (Hex.spells_encode _)

/-- Draws with the given last byte. -/
def sampleDraws (last : UInt8) : Draws where
  id := .ok ⟨[1, 35, 69, 103, 137, 171, 205, 239], rfl⟩
  secret := .ok ⟨[0, 1, 2, 3, 4, 5, 6, 7, 8, 9, 10, 11, 12, 13, 14, 15, 16, 17, 18, 19, 20, 21, 22,
    last], rfl⟩

/-- The HMAC-SHA256 of the secret of `sampleDraws 23` under the pepper `pepper`. -/
def sampleHMAC : Block 32 :=
  ⟨[163, 9, 111, 222, 102, 245, 184, 168, 247, 131, 31, 2, 133, 25, 4, 212, 177, 27, 113, 124, 219,
    75, 215, 170, 5, 169, 159, 244, 148, 237, 248, 123], rfl⟩

/-- A key is parsed and verified, another draw makes another key, and a stored HMAC that lost
its last digit is refused. -/
theorem sampleDraws_life_cycle :
    ∃ key key', generateKey (sampleDraws 23) = .ok key ∧ generateKey (sampleDraws 24) = .ok key' ∧
      key.fullKey =
        utf8 "sk-loopz_0123456789abcdef_000102030405060708090a0b0c0d0e0f1011121314151617" ∧
      parseKey key.fullKey = .ok (key.publicID, key.secret) ∧
      verifyHMAC (fun _ _ => sampleHMAC) key.secret (utf8 "pepper")
        (secretHMAC (fun _ _ => sampleHMAC) key.secret (utf8 "pepper")) = true ∧
      key.fullKey ≠ key'.fullKey ∧
      verifyHMAC (fun _ _ => sampleHMAC) key.secret (utf8 "pepper")
        (utf8 "a3096fde66f5b8a8f7831f02851904d4b11b717cdb4bd7aa05a99ff494edf87") = false := by
  obtain ⟨hlife, hinj, hverify⟩ := apiKey_life_cycle fun _ _ => sampleHMAC
  obtain ⟨key, hkey, hfull⟩ : ∃ key, generateKey (sampleDraws 23) = .ok key ∧ key.fullKey =
      utf8 "sk-loopz_0123456789abcdef_000102030405060708090a0b0c0d0e0f1011121314151617" :=
    ⟨_, rfl, by decide +kernel⟩
  obtain ⟨key', hkey'⟩ : ∃ key', generateKey (sampleDraws 24) = .ok key' := ⟨_, rfl⟩
  obtain ⟨hparse, hsame⟩ := hlife _ _ (utf8 "pepper") hkey
  refine ⟨key, key', hkey, hkey', hfull, hparse, hsame, fun heq => ?_,
    (hverify _ _ _).2 (.inl (by decide +kernel))⟩
  have hdraws := hinj _ _ _ _ hkey hkey' heq
  simp [sampleDraws] at hdraws

end LoopzToken.Gateway
