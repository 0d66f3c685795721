import BamlRest.Bamlutils.DynamicOrder

/-!
# The digest of a trusted configuration

`bamlutils/trustedconfig.go`: the digest is a hash of a length-prefixed encoding of the client, in
which the value of a credential is replaced by a sentinel.

* `digestInput`: the encoding, and `fieldBytes_append_inj` how it is read.
* `digestInput_eq_iff`: what the digest identifies.
-/

namespace BamlRest.TrustedConfig

open List

/-- A string; its length is an `int`. -/
abbrev Str := { s : Bytes // s.length < 2 ^ 63 }

inductive OptionValue where
  | literal (s : Str)
  | other

/-- `ClientProperty`, with the entries of the map of options in some order. -/
structure ClientProperty where
  name : Str
  provider : Str
  options : List (Str × OptionValue)
  distinct : (options.map Prod.fst).Nodup

/-- The errors of `TrustedConfigDigest`. -/
inductive DigestError where
  | noClient
  | noProvider
  | tooMany (n : ℕ)
  | notLiteral (key : Str)

/-- `trustedConfigDigestDomain`. -/
def digestDomain : Bytes := "baml-rest/debaml/config-selector/v1"

/-- `trustedConfigCredentialSentinel`. -/
def credentialSentinel : Str := ⟨"\x00credential", by decide⟩

def maxTrustedConfigOptions : ℕ := 16

/-- `trustedConfigCredentialKeys`. -/
def isCredential (key : Str) : Bool := key.1 = "api_key"

/-- `writeTrustedConfigCount`: eight bytes, the most significant one first. -/
def countBytes (n : ℕ) : Bytes :=
  [n / 2 ^ 56, n / 2 ^ 48, n / 2 ^ 40, n / 2 ^ 32, n / 2 ^ 24, n / 2 ^ 16, n / 2 ^ 8, n].map UInt8.ofNat

/-- `writeTrustedConfigField`. -/
def fieldBytes (s : Bytes) : Bytes := countBytes s.length ++ s

def written (key value : Str) : Str := if isCredential key then credentialSentinel else value

def entries (options : List (Str × OptionValue)) : List Str → Except DigestError (List (Str × Str))
  | [] => .ok []
  | k :: ks =>
    match options.lookup k with
    | some (.literal v) => (entries options ks).map ((k, written k v) :: ·)
    | _ => .error (.notLiteral k)

/-- The keys in the order of `sort.Strings`. -/
def sortedKeys (cp : ClientProperty) : List Str :=
  (cp.options.map Prod.fst).insertionSort fun a b => bytesLE a.1 b.1 = true

def entryBytes (es : List (Str × Str)) : Bytes :=
  es.flatMap fun e => fieldBytes e.1.1 ++ fieldBytes e.2.1

/-- What `TrustedConfigDigest` feeds to the hash. -/
def digestInput (cp : Option ClientProperty) (resolvedProvider : Str) : Except DigestError Bytes :=
  match cp with
  | none => .error .noClient
  | some cp =>
    if resolvedProvider.1 = [] then .error .noProvider
    else if maxTrustedConfigOptions < cp.options.length then .error (.tooMany cp.options.length)
    else (entries cp.options (sortedKeys cp)).map fun es =>
      fieldBytes digestDomain ++ (fieldBytes resolvedProvider.1 ++ (fieldBytes cp.name.1 ++
        (fieldBytes cp.provider.1 ++ (countBytes (sortedKeys cp).length ++ entryBytes es))))

/-- `TrustedConfigDigest`, for a hash with its result written in hexadecimal. -/
def trustedConfigDigest (hash : Bytes → Bytes) (cp : Option ClientProperty) (resolvedProvider : Str) :
    Except DigestError Bytes :=
  (digestInput cp resolvedProvider).map hash

/-! ### The encoding -/

theorem countBytes_inj {n m : ℕ} (hn : n < 2 ^ 63) (hm : m < 2 ^ 63)
    (h : countBytes n = countBytes m) : n = m := by
  simp only [countBytes, map_cons, map_nil, List.cons.injEq, and_true,
    ← UInt8.toNat_inj, UInt8.toNat_ofNat'] at h
  omega

/-- A field can be told from what follows it. -/
theorem fieldBytes_append_inj {s s' r r'} (hs : s.length < 2 ^ 63) (hs' : s'.length < 2 ^ 63)
    (h : fieldBytes s ++ r = fieldBytes s' ++ r') : s = s' ∧ r = r' := by
  simp only [fieldBytes, List.append_assoc] at h
  obtain ⟨hcount, hrest⟩ := append_inj h rfl
  exact append_inj hrest (countBytes_inj hs hs' hcount)

theorem entryBytes_inj {es es'} (hlen : es.length = es'.length)
    (h : entryBytes es = entryBytes es') : es = es' := by
  induction es generalizing es' with
  | nil => exact (length_eq_zero_iff.mp hlen.symm).symm
  | cons e es ih =>
    cases es' with
    | nil => cases hlen
    | cons e' es' =>
      simp only [entryBytes, flatMap_cons, List.append_assoc] at h
      obtain ⟨hkey, h⟩ := fieldBytes_append_inj e.1.2 e'.1.2 h
      obtain ⟨hvalue, h⟩ := fieldBytes_append_inj e.2.2 e'.2.2 h
      rw [ih (Nat.succ.inj hlen) h, Prod.ext (Subtype.ext hkey) (Subtype.ext hvalue)]

/-! ### The options -/

section

variable {cp cp' : ClientProperty} {options : List (Str × OptionValue)} {ks : List Str}
  {es : List (Str × Str)} {k v : Str}

theorem entries_cons (h : entries options (k :: ks) = .ok es) :
    ∃ w rest, options.lookup k = some (.literal w) ∧ entries options ks = .ok rest ∧
      es = (k, written k w) :: rest := by
  rw [entries] at h
  split at h
  next w hw =>
    cases hrest : entries options ks with
    | error e => rw [hrest] at h; cases h
    | ok rest => rw [hrest] at h; exact ⟨w, rest, hw, rfl, (Except.ok.inj h).symm⟩
  next => cases h

theorem entries_keys (h : entries options ks = .ok es) : es.map Prod.fst = ks := by
  induction ks generalizing es with
  | nil => cases h; rfl
  | cons k ks ih =>
    obtain ⟨w, rest, -, hrest, rfl⟩ := entries_cons h
    rw [map_cons, ih hrest]

theorem mem_entries (h : entries options ks = .ok es) (hmem : (k, v) ∈ es) :
    ∃ w, options.lookup k = some (.literal w) ∧ v = written k w := by
  induction ks generalizing es with
  | nil => cases h; cases hmem
  | cons k' ks ih =>
    obtain ⟨w, rest, hw, hrest, rfl⟩ := entries_cons h
    rcases mem_cons.mp hmem with heq | hmem
    · cases heq
      exact ⟨w, hw, rfl⟩
    · exact ih hrest hmem

theorem entries_congr {options' es'}
    (h : entries options ks = .ok es) (h' : entries options' ks = .ok es')
    (hvalues : ∀ k ∈ ks, isCredential k = false → options.lookup k = options'.lookup k) : es = es' := by
  induction ks generalizing es es' with
  | nil => cases h; cases h'; rfl
  | cons k ks ih =>
    obtain ⟨w, rest, hw, hrest, rfl⟩ := entries_cons h
    obtain ⟨w', rest', hw', hrest', rfl⟩ := entries_cons h'
    rw [ih hrest hrest' fun k hk => hvalues k (mem_cons_of_mem _ hk)]
    cases hcred : isCredential k with
    | true => rw [written, written, hcred]; rfl
    | false =>
      have heq := (hw.symm.trans (hvalues k mem_cons_self hcred)).trans hw'
      cases heq
      rfl

theorem mem_sortedKeys : k ∈ sortedKeys cp ↔ k ∈ cp.options.map Prod.fst :=
  (perm_insertionSort _ _).mem_iff

theorem sortedKeys_congr (h : ∀ k, k ∈ cp.options.map Prod.fst ↔ k ∈ cp'.options.map Prod.fst) :
    sortedKeys cp = sortedKeys cp' := by
  have : Std.Total fun a b : Str => bytesLE a.1 b.1 = true := ⟨fun a b => bytesLE_total a.1 b.1⟩
  have : Std.Antisymm fun a b : Str => bytesLE a.1 b.1 = true :=
    ⟨fun _ _ h h' => Subtype.ext (bytesLE_antisymm h h')⟩
  have : IsTrans Str fun a b => bytesLE a.1 b.1 = true := ⟨fun _ _ _ => bytesLE_trans⟩
  have hperm := (perm_ext_iff_of_nodup cp.distinct cp'.distinct).mpr h
  exact List.Perm.eq_of_pairwise' (pairwise_insertionSort _ _) (pairwise_insertionSort _ _)
    ((perm_insertionSort _ _).trans (hperm.trans (perm_insertionSort _ _).symm))

def SameOptions (cp cp' : ClientProperty) : Prop :=
  (∀ k, k ∈ cp.options.map Prod.fst ↔ k ∈ cp'.options.map Prod.fst) ∧
    ∀ k, k.1 ≠ bytes "api_key" → cp.options.lookup k = cp'.options.lookup k

theorem sameOptions_of_entries {es'} (h : entries cp.options (sortedKeys cp) = .ok es)
    (h' : entries cp'.options (sortedKeys cp') = .ok es') (heq : es = es') : SameOptions cp cp' := by
  subst heq
  have hkeys : sortedKeys cp = sortedKeys cp' := (entries_keys h).symm.trans (entries_keys h')
  refine ⟨fun k => by rw [← mem_sortedKeys, hkeys, mem_sortedKeys], fun k hk => ?_⟩
  by_cases hmem : k ∈ sortedKeys cp
  · rw [← entries_keys h] at hmem
    obtain ⟨⟨k, v⟩, hv, rfl⟩ := mem_map.mp hmem
    obtain ⟨w, hw, hwritten⟩ := mem_entries h hv
    obtain ⟨w', hw', hwritten'⟩ := mem_entries h' hv
    have hcred : isCredential k = false := decide_eq_false hk
    rw [hw, hw', ← (show v = w by rw [hwritten, written, hcred]; rfl),
      ← (show v = w' by rw [hwritten', written, hcred]; rfl)]
  have hnone : ∀ c : ClientProperty, k ∉ sortedKeys c → c.options.lookup k = none := by
    intro c hc
    rw [mem_sortedKeys] at hc
    refine lookup_eq_none_iff.mpr fun p hp => ?_
    rw [bne_iff_ne]
    rintro rfl
    exact hc (mem_map_of_mem hp)
  rw [hnone cp hmem, hnone cp' (hkeys ▸ hmem)]

end

theorem digestInput_eq_ok {cp} {rp : Str} {i}
    (h : digestInput cp rp = .ok i) : ∃ c es, cp = some c ∧
      entries c.options (sortedKeys c) = .ok es ∧
      i = fieldBytes digestDomain ++ (fieldBytes rp.1 ++ (fieldBytes c.name.1 ++
        (fieldBytes c.provider.1 ++ (countBytes (sortedKeys c).length ++ entryBytes es)))) ∧
      (sortedKeys c).length ≤ 16 := by
  cases cp with
  | none => cases h
  | some c =>
    simp only [digestInput] at h
    split_ifs at h with hrp hmany
    cases hes : entries c.options (sortedKeys c) with
    | error e => rw [hes] at h; cases h
    | ok es =>
      rw [hes] at h
      refine ⟨c, es, rfl, hes, (Except.ok.inj h).symm, ?_⟩
      rw [sortedKeys, length_insertionSort, length_map]
      exact Nat.le_of_not_lt hmany

/-- **What is hashed identifies the configuration up to its credential.** Two clients that are
accepted give the same bytes exactly when the resolved providers, names, providers and options are
the same up to the value of `api_key`. The digest is the hash of those bytes, so that then every hash
gives the same digest. -/
theorem digestInput_eq_iff (hash : Bytes → Bytes) (cp cp' : ClientProperty) (rp rp' : Str)
    (i i' : Bytes) (h : digestInput (some cp) rp = .ok i) (h' : digestInput (some cp') rp' = .ok i') :
    (i = i' ↔ rp = rp' ∧ cp.name = cp'.name ∧ cp.provider = cp'.provider ∧ SameOptions cp cp') ∧
      trustedConfigDigest hash (some cp) rp = .ok (hash i) ∧
      trustedConfigDigest hash (some cp') rp' = .ok (hash i') ∧
      (rp = rp' ∧ cp.name = cp'.name ∧ cp.provider = cp'.provider ∧ SameOptions cp cp' →
        trustedConfigDigest hash (some cp) rp = trustedConfigDigest hash (some cp') rp') := by
  have hiff : i = i' ↔
      rp = rp' ∧ cp.name = cp'.name ∧ cp.provider = cp'.provider ∧ SameOptions cp cp' := by
    obtain ⟨c, es, hc, hes, rfl, hlen⟩ := digestInput_eq_ok h
    obtain ⟨c', es', hc', hes', rfl, hlen'⟩ := digestInput_eq_ok h'
    cases hc
    cases hc'
    constructor
    · intro heq
      obtain ⟨-, heq⟩ := fieldBytes_append_inj (by decide) (by decide) heq
      obtain ⟨hrp, heq⟩ := fieldBytes_append_inj rp.2 rp'.2 heq
      obtain ⟨hname, heq⟩ := fieldBytes_append_inj cp.name.2 cp'.name.2 heq
      obtain ⟨hprovider, heq⟩ := fieldBytes_append_inj cp.provider.2 cp'.provider.2 heq
      obtain ⟨hcount, heq⟩ := append_inj heq rfl
      have hkeys := countBytes_inj (by omega) (by omega) hcount
      rw [← entries_keys hes, ← entries_keys hes', length_map, length_map] at hkeys
      exact ⟨Subtype.ext hrp, Subtype.ext hname, Subtype.ext hprovider,
        sameOptions_of_entries hes hes' (entryBytes_inj hkeys heq)⟩
    rintro ⟨rfl, hname, hprovider, hkeys, hvalues⟩
    have hsorted := sortedKeys_congr hkeys
    rw [← hsorted] at hes' ⊢
    have hsame : es = es' := entries_congr hes hes' fun k _ hk =>
      hvalues k (of_decide_eq_false hk)
    rw [hname, hprovider, hsame]
  have hdigest : trustedConfigDigest hash (some cp) rp = .ok (hash i) := by
    rw [trustedConfigDigest, h]
    rfl
  have hdigest' : trustedConfigDigest hash (some cp') rp' = .ok (hash i') := by
    rw [trustedConfigDigest, h']
    rfl
  refine ⟨hiff, hdigest, hdigest', fun hsame => ?_⟩
  rw [hdigest, hdigest', hiff.mpr hsame]

def keyed (key : Str) : ClientProperty where
  name := ⟨"GPT", by decide⟩
  provider := ⟨"openai", by decide⟩
  options := [(⟨"model", by decide⟩, .literal ⟨"gpt-4o", by decide⟩),
    (⟨"api_key", by decide⟩, .literal key)]
  distinct := by
    simp only [map_cons, map_nil]
    decide

/-- The key is rotated: the bytes stay, and so does every digest. -/
theorem digestInput_eq_iff_rotation : ∃ i : Bytes,
    digestInput (some (keyed ⟨bytes "old", by decide⟩)) ⟨bytes "openai", by decide⟩ = .ok i ∧
      digestInput (some (keyed ⟨bytes "new", by decide⟩)) ⟨bytes "openai", by decide⟩ = .ok i ∧
      SameOptions (keyed ⟨bytes "old", by decide⟩) (keyed ⟨bytes "new", by decide⟩) ∧
      ∀ hash key, key ∈ [bytes "old", bytes "new"] → ∀ hkey,
        trustedConfigDigest hash (some (keyed ⟨key, hkey⟩)) ⟨bytes "openai", by decide⟩ =
          .ok (hash i) := by
  have hold : ∀ key : Str, ∃ i, digestInput (some (keyed key)) ⟨bytes "openai", by decide⟩ = .ok i :=
    fun _ => ⟨_, rfl⟩
  obtain ⟨i, hi⟩ := hold ⟨bytes "old", by decide⟩
  obtain ⟨i', hi'⟩ := hold ⟨bytes "new", by decide⟩
  have heq : i = i' := by
    have h := hi.symm.trans (show _ = .ok i' from hi')
    exact Except.ok.inj h
  subst heq
  have hrotated := fun hash => digestInput_eq_iff hash _ _ _ _ i i hi hi'
  refine ⟨i, hi, hi', ((hrotated id).1.mp rfl).2.2.2, fun hash key hmem _ => ?_⟩
  simp only [mem_cons, not_mem_nil, or_false] at hmem
  rcases hmem with rfl | rfl
  · exact (hrotated hash).2.1
  · exact (hrotated hash).2.2.1

end BamlRest.TrustedConfig
