/-
The command-line prover. From a tree with one demo record of its own, and the timestamp, nonce and expiry
of its arguments, it builds and proves a trace and writes the arguments of `verify` to a file. What a reader
of that file, with the challenge id filled in, sends to the canister answers a challenge exactly if the
registry that issued it held that one record and no other; and the file determines the proof and the inputs.
-/
import Yaqeen.Lib.Template
import Yaqeen.Canister.Codec
import Yaqeen.Canister.Provability
import Yaqeen.Canister.Submissions
import Yaqeen.Prover.SparseTree

namespace Yaqeen.Prover

open Air FinMap HashTree Runs Canister

/-! ## Arguments -/

/-- `u64::from_str`. -/
def parseU64 (cs : List Char) : Option UInt64 := do
  let n ← parseU128 cs
  guard (n < 2 ^ 64)
  return UInt64.ofNat n

structure Settings where
  currentTimestamp : UInt64
  licenseExpiry : UInt64
  requestNonce : BaseElement

/-- What the arguments say, after the program's name; `none` is a panic. -/
def settings (argv : List String) : Option Settings := do
  let currentTimestamp ← (argv[1]?).elim (some 1754000000) fun s => parseU64 s.toList
  let licenseExpiry ← (argv[3]?).elim (some 1785536000) fun s => parseU64 s.toList
  -- the nonce is parsed as the argument of `BaseElement::new`, a `u128`
  let requestNonce ← (argv[2]?).elim (some 7) fun s => parseU128 s.toList
  return ⟨currentTimestamp, licenseExpiry, BaseElement.new requestNonce⟩

/-! ## The file -/

/-- `format!("\\{b:02x}")` of each byte. -/
def hex (proofBytes : List UInt8) : List Char :=
  proofBytes.flatMap fun b => ['\\', Nat.digitChar (b.toNat / 16), Nat.digitChar (b.toNat % 16)]

def candidArgs (proofBytes : List UInt8) (p : PublicInputs) : String :=
  "(\x7bchallengeId\x7d, blob \"" ++ String.ofList (hex proofBytes) ++
    "\", record \x7b registry_id = " ++ feToString p.registryId ++
    " : nat64; merkle_root = \"" ++ feToString p.merkleRoot ++
    "\"; purpose = " ++ feToString p.purpose ++
    " : nat64; request_nonce = " ++ feToString p.requestNonce ++
    " : nat64; current_timestamp = " ++ feToString p.currentTimestamp ++
    " : nat64; nullifier = \"" ++ feToString p.nullifier ++ "\" \x7d)"

/-- A number of the file as a `nat64`. -/
def nat64 (v : BaseElement) : Option UInt64 := if v.val < 2 ^ 64 then some (UInt64.ofNat v.val) else none

/-- The record of the file as `verify` receives it, if all numbers fit. -/
def fileRecord (p : PublicInputs) : Option VerifyPublicInputs := do
  let registryId ← nat64 p.registryId
  let purpose ← nat64 p.purpose
  let requestNonce ← nat64 p.requestNonce
  let currentTimestamp ← nat64 p.currentTimestamp
  return ⟨registryId, feToString p.merkleRoot, purpose, requestNonce, currentTimestamp, feToString p.nullifier⟩

/-- What the file holds in place of the challenge id. -/
def placeholder : List Char := "\x7bchallengeId\x7d".toList

/-- `sed s/{challengeId}/id/` of the file. -/
def fillId (id : UInt64) (file : String) : String :=
  String.ofList (Template.replaceFirst placeholder (Nat.toDigits 10 id.toNat) file.toList)

/-- What a reader of Candid texts makes of a filled-in file: the id, the bytes of the blob and the record, if all
its numbers fit. -/
def ReadsArgs (read : String → Option (UInt64 × List UInt8 × VerifyPublicInputs)) : Prop :=
  ∀ id proofBytes p, read (fillId id (candidArgs proofBytes p)) =
    (fileRecord p).map fun publicInputs => (id, proofBytes, publicInputs)

/-! ## The run -/

def demoSecret : BaseElement := BaseElement.new 0xA11CE

def demoProperty : BaseElement := BaseElement.new 42

def demoCommitment : BaseElement := Air.hash [BaseElement.new domainOwnerCommitment, demoSecret, demoProperty]

def demoLeaf (licenseExpiry : UInt64) : BaseElement :=
  Air.hash [BaseElement.new domainLeaf, BaseElement.new 1, demoCommitment, 0, 1, BaseElement.new licenseExpiry.toNat]

def demoTree (licenseExpiry : UInt64) : SparseTree := SparseTree.new.insertLeaf 0 (demoLeaf licenseExpiry)

def Settings.witness (g : Settings) : Witness where
  registryId := BaseElement.new 1
  purpose := BaseElement.new 1
  requestNonce := g.requestNonce
  currentTimestamp := g.currentTimestamp
  ownerSecret := demoSecret
  propertyId := demoProperty
  licenseExpiry := g.licenseExpiry
  merkleSiblings := ((demoTree g.licenseExpiry).proof 0).1
  merkleBits := ((demoTree g.licenseExpiry).proof 0).2

structure Output where
  proofBytes : List UInt8
  pubInputs : PublicInputs
  file : String

/-- `prove` stands for the prover of Winterfell. -/
def main (prove : TraceTable → PublicInputs → Option (List UInt8)) (argv : List String) : Option Output := do
  let g ← settings argv
  let (trace, pubInputs) ← buildTrace g.witness
  guard (pubInputs.merkleRoot = (demoTree g.licenseExpiry).root)
  let proofBytes ← prove trace pubInputs
  return ⟨proofBytes, pubInputs, candidArgs proofBytes pubInputs⟩

/-! ## Reading the file back -/

theorem quote_not_mem_hex (proofBytes : List UInt8) : '"' ∉ hex proofBytes := by
  have hdigit : ∀ n < 16, '"' ≠ Nat.digitChar n := by decide
  simp only [hex, List.mem_flatMap, List.mem_cons, List.not_mem_nil, or_false, not_exists, not_and, not_or]
  intro b _
  have := b.toNat_lt
  exact ⟨by decide, hdigit _ (by omega), hdigit _ (by omega)⟩

/-- The value of a hexadecimal digit. -/
def digitValue (c : Char) : Option ℕ := (List.range 16).find? fun n => Nat.digitChar n = c

theorem digitValue_digitChar : ∀ n < 16, digitValue (Nat.digitChar n) = some n := by decide

/-- The bytes of a blob. -/
def unhex : List Char → Option (List UInt8)
  | [] => some []
  | '\\' :: high :: low :: cs => do
    let h ← digitValue high
    let l ← digitValue low
    let bytes ← unhex cs
    return UInt8.ofNat (16 * h + l) :: bytes
  | _ => none

theorem unhex_hex : ∀ proofBytes : List UInt8, unhex (hex proofBytes) = some proofBytes
  | [] => rfl
  | b :: bytes => by
    have hb := b.toNat_lt
    have hbyte : UInt8.ofNat (16 * (b.toNat / 16) + b.toNat % 16) = b := by rw [Nat.div_add_mod, UInt8.ofNat_toNat]
    have hcons : hex (b :: bytes) =
      '\\' :: Nat.digitChar (b.toNat / 16) :: Nat.digitChar (b.toNat % 16) :: hex bytes := rfl
    rw [hcons, unhex, digitValue_digitChar _ (by omega), digitValue_digitChar _ (by omega), unhex_hex bytes]
    simp only [Option.bind_eq_bind, Option.bind_some, Option.pure_def, hbyte]

theorem hex_inj {bytes bytes' : List UInt8} (h : hex bytes = hex bytes') : bytes = bytes' := by
  have hbytes := unhex_hex bytes
  rw [h, unhex_hex] at hbytes
  exact (Option.some.inj hbytes).symm

/-- The text of a field element has digits only. -/
theorem not_mem_feToString {c : Char} (hc : c.isDigit = false) (v : BaseElement) : c ∉ (feToString v).toList := by
  unfold feToString
  rw [Nat.toList_repr]
  intro hmem
  rw [(Decimal.numeral_toDigits v.val).digit c hmem] at hc
  cases hc

def fields (proofBytes : List UInt8) (p : PublicInputs) : List (List Char) :=
  [hex proofBytes, (feToString p.registryId).toList, (feToString p.merkleRoot).toList, (feToString p.purpose).toList,
    (feToString p.requestNonce).toList, (feToString p.currentTimestamp).toList, (feToString p.nullifier).toList]

/-- The texts that close the fields of the file. -/
def closers : List (List Char) :=
  ["\", record \x7b registry_id = ".toList, " : nat64; merkle_root = \"".toList, "\"; purpose = ".toList,
    " : nat64; request_nonce = ".toList, " : nat64; current_timestamp = ".toList, " : nat64; nullifier = \"".toList,
    "\" \x7d)".toList]

theorem candidArgs_eq (proofBytes : List UInt8) (p : PublicInputs) : (candidArgs proofBytes p).toList =
    "(\x7bchallengeId\x7d, blob \"".toList ++ Template.render (fields proofBytes p) closers := by
  unfold candidArgs fields closers
  simp only [String.toList_append, String.toList_ofList, Template.render_cons, Template.render_nil, List.append_assoc,
    List.append_nil]

theorem fields_closed (proofBytes : List UInt8) (p : PublicInputs) :
    List.Forall₂ Template.Closes (fields proofBytes p) closers := by
  have hquote : ∀ v, '"' ∉ (feToString v).toList := not_mem_feToString (by decide)
  have hspace : ∀ v, ' ' ∉ (feToString v).toList := not_mem_feToString (by decide)
  unfold fields closers
  refine .cons ⟨'"', ?_, quote_not_mem_hex proofBytes⟩ (.cons ⟨' ', ?_, hspace _⟩ (.cons ⟨'"', ?_, hquote _⟩
    (.cons ⟨' ', ?_, hspace _⟩ (.cons ⟨' ', ?_, hspace _⟩ (.cons ⟨' ', ?_, hspace _⟩ (.cons ⟨'"', ?_, hquote _⟩ .nil))))))
  all_goals decide

/-- The file determines the proof and the public inputs. -/
theorem candid_args_exact {proofBytes proofBytes' : List UInt8} {p p' : PublicInputs} :
    candidArgs proofBytes p = candidArgs proofBytes' p' ↔ proofBytes = proofBytes' ∧ p = p' := by
  constructor
  · intro h
    have h := congrArg String.toList h
    rw [candidArgs_eq, candidArgs_eq] at h
    have hfields := Template.render_inj (fields_closed proofBytes p) (fields_closed proofBytes' p')
      (List.append_cancel_left h)
    simp only [fields, List.cons.injEq, and_true, String.toList_inj] at hfields
    obtain ⟨hbytes, hregistry, hroot, hpurpose, hnonce, hnow, hnullifier⟩ := hfields
    refine ⟨hex_inj hbytes, ?_⟩
    cases p
    cases p'
    rw [PublicInputs.mk.injEq]
    exact ⟨feToString_inj hregistry, feToString_inj hroot, feToString_inj hpurpose, feToString_inj hnonce,
      feToString_inj hnow, feToString_inj hnullifier⟩
  · rintro ⟨rfl, rfl⟩
    rfl

/-- The file with the id filled in. -/
theorem fillId_candidArgs (id : UInt64) (proofBytes : List UInt8) (p : PublicInputs) :
    (fillId id (candidArgs proofBytes p)).toList =
      '(' :: Template.render (Nat.toDigits 10 id.toNat :: fields proofBytes p) (", blob \"".toList :: closers) := by
  have hprefix : "(\x7bchallengeId\x7d, blob \"".toList = '(' :: (placeholder ++ ", blob \"".toList) := by decide
  have hplaceholder : placeholder = '\x7b' :: "challengeId\x7d".toList := by decide
  unfold fillId
  rw [String.toList_ofList, candidArgs_eq, hprefix, List.cons_append, List.append_assoc, hplaceholder,
    Template.replaceFirst_cons (by decide), Template.render_cons]

/-- A reader of such texts. -/
def readArgs (text : String) : Option (UInt64 × List UInt8 × VerifyPublicInputs) :=
  match Template.read (", blob \"".toList :: closers) text.toList.tail with
  | some [id, blob, registryId, merkleRoot, purpose, requestNonce, currentTimestamp, nullifier] => do
    let id ← parseU64 id
    let proofBytes ← unhex blob
    let registryId ← parseU64 registryId
    let purpose ← parseU64 purpose
    let requestNonce ← parseU64 requestNonce
    let currentTimestamp ← parseU64 currentTimestamp
    return (id, proofBytes,
      ⟨registryId, String.ofList merkleRoot, purpose, requestNonce, currentTimestamp, String.ofList nullifier⟩)
  | _ => none

theorem parseU64_toDigits (id : UInt64) : parseU64 (Nat.toDigits 10 id.toNat) = some id := by
  have hid := id.toNat_lt
  unfold parseU64
  rw [parseU128_toDigits (by omega)]
  simp only [Option.bind_eq_bind, Option.bind_some, guard, if_pos hid, Option.pure_def, UInt64.ofNat_toNat]

theorem parseU64_feToString (v : BaseElement) : parseU64 (feToString v).toList = nat64 v := by
  unfold parseU64 nat64 feToString
  rw [Nat.toList_repr, parseU128_toDigits (val_lt_u128 v)]
  split_ifs with hlt
  · simp only [Option.bind_eq_bind, Option.bind_some, guard, if_pos hlt, Option.pure_def]
  · simp only [Option.bind_eq_bind, Option.bind_some, guard, if_neg hlt, failure, Alternative.failure, Option.bind_none]

theorem readsArgs_readArgs : ReadsArgs readArgs := by
  intro id proofBytes p
  have hid : Template.Closes (Nat.toDigits 10 id.toNat) ", blob \"".toList :=
    ⟨',', by decide, fun hmem => by
      have hdigit := (Decimal.numeral_toDigits id.toNat).digit ',' hmem
      cases hdigit⟩
  have hread := Template.read_render (.cons hid (fields_closed proofBytes p))
  unfold readArgs
  rw [fillId_candidArgs, List.tail_cons, hread]
  simp only [fields, parseU64_toDigits, unhex_hex, parseU64_feToString, String.ofList_toList, Option.bind_eq_bind,
    Option.bind_some]
  unfold fileRecord
  simp only [Option.bind_eq_bind, Option.map_bind, Option.pure_def, Option.map_some, Function.comp_def]

/-! ## The registry of the demo record -/

theorem nat64_eq_some {v : BaseElement} {n : UInt64} : nat64 v = some n ↔ v = fe n := by
  unfold nat64
  constructor
  · intro h
    split_ifs at h with hlt
    cases h
    unfold fe
    rw [UInt64.toNat_ofNat', Nat.mod_eq_of_lt hlt]
    exact (ZMod.natCast_zmod_val v).symm
  · rintro rfl
    have hval : (fe n).val = n.toNat := val_new (u64_lt_modulus n)
    rw [hval, if_pos n.toNat_lt, UInt64.ofNat_toNat]

theorem fileRecord_eq_some {p : PublicInputs} {v : VerifyPublicInputs} : fileRecord p = some v ↔
    p.registryId = fe v.registryId ∧ v.merkleRoot = feToString p.merkleRoot ∧ p.purpose = fe v.purpose ∧
      p.requestNonce = fe v.requestNonce ∧ p.currentTimestamp = fe v.currentTimestamp ∧
      v.nullifier = feToString p.nullifier := by
  unfold fileRecord
  constructor
  · intro h
    obtain ⟨registryId, hregistry, h⟩ := Option.bind_eq_some_iff.1 h
    obtain ⟨purpose, hpurpose, h⟩ := Option.bind_eq_some_iff.1 h
    obtain ⟨requestNonce, hnonce, h⟩ := Option.bind_eq_some_iff.1 h
    obtain ⟨currentTimestamp, hnow, h⟩ := Option.bind_eq_some_iff.1 h
    cases h
    exact ⟨nat64_eq_some.1 hregistry, rfl, nat64_eq_some.1 hpurpose, nat64_eq_some.1 hnonce, nat64_eq_some.1 hnow, rfl⟩
  · rintro ⟨hregistry, hroot, hpurpose, hnonce, hnow, hnullifier⟩
    rw [nat64_eq_some.2 hregistry, nat64_eq_some.2 hpurpose, nat64_eq_some.2 hnonce, nat64_eq_some.2 hnow, ← hroot,
      ← hnullifier]
    rfl

/-- The demo record as a title. -/
def demoTitle (licenseExpiry : UInt64) : Title where
  record := ⟨42, feToString demoCommitment, 0, 1, licenseExpiry⟩
  commitment := demoCommitment
  parses := parseFe_feToString demoCommitment

def demoTitles (licenseExpiry : UInt64) : Titles := Register.ofList [demoTitle licenseExpiry]

theorem demoTitle_leaf (licenseExpiry : UInt64) : (demoTitle licenseExpiry).leaf = demoLeaf licenseExpiry := by
  have h0 : fe 0 = 0 := Nat.cast_zero
  have h1 : fe 1 = 1 := Nat.cast_one
  unfold Title.leaf Title.inputs demoLeaf
  simp only [demoTitle, h0, h1]
  rfl

theorem demoTitles_leafAt (licenseExpiry : UInt64) :
    (demoTitles licenseExpiry).leafAt = fun i => if i = 0 then demoLeaf licenseExpiry else 0 := by
  have hentries : (demoTitles licenseExpiry).entries = [demoTitle licenseExpiry] := rfl
  funext i
  unfold Titles.leafAt
  rw [hentries]
  cases i with
  | zero =>
    rw [List.getElem?_cons_zero, Option.elim_some, if_pos rfl]
    exact demoTitle_leaf licenseExpiry
  | succ i =>
    rw [List.getElem?_cons_succ, List.getElem?_nil, Option.elim_none, if_neg (Nat.succ_ne_zero i)]

/-- The tree of the run is that of a registry with the demo record only. -/
theorem demoTree_full (licenseExpiry : UInt64) :
    Full (demoTree licenseExpiry) ∧ (demoTree licenseExpiry).nodeAt 0 = (demoTitles licenseExpiry).leafAt := by
  refine ⟨full_new.insert 0 _, ?_⟩
  unfold demoTree
  rw [full_new.leaf_insert, demoTitles_leafAt]
  funext i
  have hzero : SparseTree.new.nodeAt 0 i = 0 := by
    rw [mirrors_new.nodeAt, nodeAt_fresh, initZeroHashes_getD (Nat.zero_le _)]
    rfl
  rw [Function.update_apply, hzero]

theorem demoTree_root (licenseExpiry : UInt64) : (demoTree licenseExpiry).root = (demoTitles licenseExpiry).root := by
  obtain ⟨hfull, hleaf⟩ := demoTree_full licenseExpiry
  rw [hfull.root, hleaf]
  rfl

/-! ## The output -/

/-- The public inputs of a run. -/
def Settings.inputs (g : Settings) : PublicInputs where
  registryId := BaseElement.new 1
  merkleRoot := (demoTitles g.licenseExpiry).root
  purpose := BaseElement.new 1
  requestNonce := g.requestNonce
  currentTimestamp := BaseElement.new g.currentTimestamp.toNat
  nullifier := Air.hash [BaseElement.new domainNullifier, demoSecret, demoProperty, BaseElement.new 1, g.requestNonce]

theorem Settings.siblings_length (g : Settings) : g.witness.merkleSiblings.length = treeDepth := by
  simp [Settings.witness, proof_eq, path_length]

theorem Settings.bits_length (g : Settings) : g.witness.merkleBits.length = treeDepth := by
  simp [Settings.witness, proof_eq, path_length]

/-- The Merkle jobs fold the path of the tree to its root. -/
theorem Settings.digest (g : Settings) : (witnessData g.witness).digest 26 = (demoTitles g.licenseExpiry).root := by
  obtain ⟨hfull, hleaf⟩ := demoTree_full g.licenseExpiry
  have hzip : g.witness.merkleSiblings.zip g.witness.merkleBits =
      path (fullNode nodeHash (demoTitles g.licenseExpiry).leafAt) treeDepth 0 0 := by
    rw [← hleaf, ← hfull.path]
    simp only [Settings.witness, proof_eq, zip_path]
  have hleafInputs : Air.hash [BaseElement.new domainLeaf, g.witness.registryId,
      Air.hash [BaseElement.new domainOwnerCommitment, g.witness.ownerSecret, g.witness.propertyId], 0, 1,
      BaseElement.new g.witness.licenseExpiry.toNat] = demoLeaf g.licenseExpiry := by
    unfold demoLeaf demoCommitment Settings.witness
    simp only
  have hstart : demoLeaf g.licenseExpiry = fullNode nodeHash (demoTitles g.licenseExpiry).leafAt 0 0 := by
    rw [fullNode, demoTitles_leafAt]
    exact (if_pos rfl).symm
  rw [digest_root g.witness g.siblings_length g.bits_length, hzip, hleafInputs, hstart, foldPath_fullNode, Nat.zero_add,
    Nat.zero_div]
  unfold Titles.root
  simp only

/-- The builder's public inputs. -/
theorem Settings.publicInputs (g : Settings) :
    (witnessData g.witness).publicInputs (BaseElement.new g.witness.currentTimestamp.toNat) = g.inputs := by
  rw [witness_publicInputs, g.digest, digest_nullifier]
  unfold Settings.inputs Settings.witness
  simp only

section

variable {argv : List String} {g : Settings}

theorem main_eq (prove : TraceTable → PublicInputs → Option (List UInt8)) (hg : settings argv = some g)
    (hlt : g.currentTimestamp < g.licenseExpiry) :
    main prove argv = (prove ((witnessData g.witness).table (rangeBits g.witness) 32) g.inputs).map
      fun proofBytes => ⟨proofBytes, g.inputs, candidArgs proofBytes g.inputs⟩ := by
  have hbuild := buildTrace_eq g.witness g.siblings_length g.bits_length hlt
  rw [g.publicInputs] at hbuild
  have hroot : g.inputs.merkleRoot = (demoTree g.licenseExpiry).root := by
    rw [demoTree_root]
    rfl
  generalize g.inputs = p at hbuild hroot ⊢
  generalize (witnessData g.witness).table (rangeBits g.witness) 32 = cols at hbuild ⊢
  unfold main
  rw [hg, Option.bind_eq_bind, Option.bind_some, hbuild, Option.bind_eq_bind, Option.bind_some]
  generalize (demoTree g.licenseExpiry).root = x at hroot ⊢
  subst hroot
  simp only [guard, if_true, Option.pure_def, Option.bind_eq_bind, Option.bind_some]
  cases prove cols p with
  | none => rfl
  | some proofBytes => rfl

theorem demo_satisfies (hx : InRange g.licenseExpiry g.currentTimestamp) :
    Satisfies g.inputs ((witnessData g.witness).table (rangeBits g.witness) 32) := by
  have hlt : g.witness.currentTimestamp < g.witness.licenseExpiry := UInt64.lt_iff_toNat_lt.2 hx.1
  have hle : g.witness.licenseExpiry.toNat - g.witness.currentTimestamp.toNat ≤ 2 ^ 32 := hx.2
  have hsat := JobData.satisfies_of_fits (witness_fits g.witness hlt (by omega))
  rwa [g.publicInputs] at hsat

end

/-! ## Answers to a challenge -/

section

variable {tr : Trace} {s : State} (h : CanisterRun tr s)

include h

/-- The root of a challenge is that of the titles submitted before its request. -/
theorem requested_root (r : Request tr) (hcap : (titlesOf (tr.take r.index)).size ≤ 2 ^ treeDepth) :
    r.transition.pre.currentRoot = (titlesOf (tr.take r.index)).root := by
  have hbefore := (h.before r.occurs).1
  exact (registers_run hbefore).root (treeInv_reachable hbefore) hcap

/-- The file of a run with the values of a challenge is the submission of its statement. -/
theorem submission_of_inputs {r : Request tr} {g : Settings} (hnow : g.currentTimestamp = r.view.currentTimestamp)
    (hnonce : g.requestNonce = fe r.view.requestNonce) (hpurpose : r.purpose = 1)
    (hroot : r.transition.pre.currentRoot = (demoTitles g.licenseExpiry).root) :
    g.inputs = r.statement g.inputs.nullifier ∧ fileRecord g.inputs = some (r.view.submission g.inputs.nullifier) := by
  have hregistry : BaseElement.new 1 = fe registryId := rfl
  have hone : BaseElement.new 1 = fe 1 := rfl
  have htext : r.view.merkleRoot = feToString r.transition.pre.currentRoot := by
    rw [r.view_eq h]
    rfl
  constructor
  · rw [r.statement_eq h, hpurpose, hroot, ← hnonce, ← hnow]
    rfl
  · refine fileRecord_eq_some.2 ⟨?_, ?_, ?_, hnonce, ?_, rfl⟩
    · show BaseElement.new 1 = fe r.view.registryId
      rw [r.registry h, hregistry]
    · show r.view.merkleRoot = feToString (demoTitles g.licenseExpiry).root
      rw [htext, hroot]
    · show BaseElement.new 1 = fe r.view.purpose
      rw [r.purpose_eq h, hpurpose, hone]
    · show fe g.currentTimestamp = fe r.view.currentTimestamp
      rw [hnow]

variable (hclock : Clock tr) (hissued : issuedCount tr < 2 ^ 64)

include hclock hissued

/-- A file that is accepted for an open challenge has its values and its root. -/
theorem values_of_accepted {r : Request tr} {g : Settings} {now : Time} {v : BaseElement} (ho : StillOpen r now v)
    {w : Winterfell} {proofBytes : List UInt8} {publicInputs : VerifyPublicInputs}
    (hfile : fileRecord g.inputs = some publicInputs) {ok : VerifyOk}
    (hok : (verify w s r.caller now.ns r.view.challengeId proofBytes publicInputs).1 = .ok ok) :
    g.currentTimestamp = r.view.currentTimestamp ∧ g.requestNonce = fe r.view.requestNonce ∧ r.purpose = 1 ∧
      r.transition.pre.currentRoot = (demoTitles g.licenseExpiry).root := by
  obtain ⟨-, hroot, hpurpose, hnonce, hnow, -⟩ := fileRecord_eq_some.1 hfile
  have hrecent := recent_iff .verify h hclock (p := r.caller) ho.latest
  obtain ⟨e, -, heq⟩ | ⟨c, v', hp, -, -⟩ := verify_cases w r.view.challengeId proofBytes publicInputs (r.caller_ne h)
    fun hr => ho.unhurried (hrecent.1 hr)
  · rw [heq] at hok
    cases hok
  · have hkept := r.kept h hissued (fun τ hτ => (ho.latest τ hτ).trans ho.inTime) ho.unanswered
    rw [hp.stored] at hkept
    cases hkept
    have hview := r.view_eq h
    refine ⟨?_, ?_, ?_, ?_⟩
    · apply new_u64_inj
      rw [hview]
      exact hnow.trans (congrArg fe hp.currentTimestamp)
    · rw [hview]
      exact hnonce.trans (congrArg fe hp.requestNonce)
    · have hone : fe 1 = fe publicInputs.purpose := hpurpose
      exact hp.purpose.symm.trans (new_u64_inj hone).symm
    · have hparse := hp.merkleRoot
      rw [hroot, parseFe_feToString] at hparse
      exact (Except.ok.inj hparse).symm

/-- With a prover that proves every satisfying table, the command line refuses no arguments that parse to an
expiry in range of the timestamp, and what a reader of Candid texts reads from its file, once the id of an
open challenge is filled in, is accepted exactly if the command line was given the timestamp and nonce
of the challenge, the purpose is 1 and the registry then held the demo record with this expiry and
nothing else, where no leaf is zero and the hash does not collide. -/
theorem cli_answers_iff {r : Request tr} {argv : List String} {g : Settings} (hargs : settings argv = some g)
    (hx : InRange g.licenseExpiry g.currentTimestamp) (hcap : (titlesOf (tr.take r.index)).size ≤ 2 ^ treeDepth)
    (hinj : ((titlesOf (tr.take r.index)).hashed ∪ (demoTitles g.licenseExpiry).hashed).InjOn Air.hash)
    (hne : ∀ t ∈ (titlesOf (tr.take r.index)).entries, t.leaf ≠ 0) (hdemo : demoLeaf g.licenseExpiry ≠ 0)
    (w : Winterfell) (prove : TraceTable → PublicInputs → Option (List UInt8))
    (hprove : ∀ cols pubInputs, Satisfies pubInputs cols →
      ∃ proofBytes, prove cols pubInputs = some proofBytes ∧ w proofBytes pubInputs = .accepted)
    (read : String → Option (UInt64 × List UInt8 × VerifyPublicInputs)) (hread : ReadsArgs read) :
    ∃ out, main prove argv = some out ∧ ∀ now, StillOpen r now out.pubInputs.nullifier →
      ((∃ id proofBytes publicInputs ok,
        read (fillId r.view.challengeId out.file) = some (id, proofBytes, publicInputs) ∧
        (verify w s r.caller now.ns id proofBytes publicInputs).1 = .ok ok) ↔
      g.currentTimestamp = r.view.currentTimestamp ∧ g.requestNonce = fe r.view.requestNonce ∧ r.purpose = 1 ∧
        (titlesOf (tr.take r.index)).entries.map Title.content = [(demoCommitment, 0, 1, g.licenseExpiry)]) := by
  obtain ⟨proofBytes, hproved, hw⟩ := hprove _ _ (demo_satisfies hx)
  have hmain := main_eq prove hargs (UInt64.lt_iff_toNat_lt.2 hx.1)
  rw [hproved, Option.map_some] at hmain
  have hroots := Titles.root_eq_iff hcap (show (demoTitles g.licenseExpiry).size ≤ 2 ^ treeDepth by
    show 1 ≤ _
    norm_num) hinj hne (by
      intro t ht
      rw [List.mem_singleton.1 (show t ∈ [demoTitle g.licenseExpiry] from ht), demoTitle_leaf]
      exact hdemo)
  have hcontent : (demoTitles g.licenseExpiry).entries.map Title.content =
    [(demoCommitment, 0, 1, g.licenseExpiry)] := rfl
  rw [← requested_root h r hcap, hcontent] at hroots
  refine ⟨_, hmain, fun now ho => ?_⟩
  rw [← hroots, hread]
  constructor
  · rintro ⟨id, bytes, publicInputs, ok, hfile, hok⟩
    obtain ⟨publicInputs', hfile, hargs⟩ := Option.map_eq_some_iff.1 hfile
    cases hargs
    exact values_of_accepted h hclock hissued ho hfile hok
  · rintro ⟨hnow, hnonce, hpurpose, hroot⟩
    obtain ⟨hstatement, hfile⟩ := submission_of_inputs h hnow hnonce hpurpose hroot
    rw [hstatement] at hw
    exact ⟨_, _, _, _, by rw [hfile, Option.map_some], ho.accepted h hclock hissued hw⟩

end

/-! ## The registry with the demo record -/

/-- The expiry where the arguments name none. -/
def demoExpiry : UInt64 := 1785536000

def demoState : State := submit (enrolled 0) (demoTitle demoExpiry).record (demoTitle demoExpiry).leaf

/-- The registrar becomes the admin and submits the demo record, and the owner requests a challenge. -/
def demoTrace : Trace :=
  [⟨freshState, .call rejectAll registrar timeZero (.bootstrapAdmin true registrar) (.done (.ok ())), enrolled 0⟩,
    ⟨enrolled 0, .call rejectAll registrar timeZero (.submitRecord (demoTitle demoExpiry).record)
      (.root (.ok (feToString demoState.currentRoot))), demoState⟩,
    requestTransition demoState]

theorem demo_step : Step (enrolled 0) (.call rejectAll registrar timeZero (.submitRecord (demoTitle demoExpiry).record)
    (.root (.ok (feToString demoState.currentRoot)))) demoState :=
  registrar_submits (enrolled_admin 0) (demoTitle demoExpiry).leafHash

theorem demo_quiet : Quiet demoState :=
  ⟨by rw [demoState, submit_lastChallengeCallAt]; rfl, by rw [demoState, submit_lastVerifyCallAt]; rfl,
    by rw [demoState, submit_nullifiers]; rfl⟩

theorem demo_run : CanisterRun demoTrace (request demoState owner 0 1) :=
  ((Run.nil.snoc (.call rejectAll registrar timeZero (.bootstrapAdmin true registrar))).snoc demo_step).snoc
    (sample_request demo_quiet)

def demoRequest : Request demoTrace where
  index := 2
  transition := requestTransition demoState
  occurs := rfl
  caller := owner
  now := timeZero
  purpose := 1
  view := viewOf demoState.nextChallengeId (issued demoState owner 0 1)
  requested := ⟨_, rfl⟩

/-- The titles before the request. -/
theorem demo_titles : titlesOf (demoTrace.take 2) = demoTitles demoExpiry := by
  obtain ⟨t, ht, -, hsub⟩ := exists_title (demoTitle demoExpiry).leafHash
  have heq : t = demoTitle demoExpiry := Title.eq_of_record ht
  have htake : demoTrace.take 2 = [⟨freshState, .call rejectAll registrar timeZero (.bootstrapAdmin true registrar)
      (.done (.ok ())), enrolled 0⟩, ⟨enrolled 0, .call rejectAll registrar timeZero
      (.submitRecord (demoTitle demoExpiry).record) (.root (.ok (feToString demoState.currentRoot))), demoState⟩] := rfl
  unfold titlesOf demoTitles
  rw [htake, submissions_cons, submissions_cons, hsub, heq]
  rfl

theorem demo_time : ∀ τ ∈ demoTrace, τ.label.time = 0 :=
  List.forall_mem_cons.2 ⟨rfl, List.forall_mem_cons.2 ⟨rfl, List.forall_mem_singleton.2 rfl⟩⟩

theorem demo_open (v : BaseElement) : StillOpen demoRequest timeZero v := by
  refine .of_uncalled (fun τ hτ => (demo_time τ hτ).le) ?_
    fun τ hτ w caller t id proofBytes publicInputs reply hlabel => ?_
  · show (0 : Int) ≤ i64 (0 + challengeTtlNs)
    decide
  · simp only [demoTrace, List.mem_cons, List.not_mem_nil, or_false] at hτ
    rcases hτ with h | h | h <;> rw [h] at hlabel <;> cases hlabel

/-- The inputs of the demo leaf. -/
def demoInputs : List ℕ := singleLeaf (hashList [2, 0xA11CE, 42]) demoExpiry

theorem demoInputs_eval : (demoTitle demoExpiry).inputs = demoInputs.map BaseElement.new := by
  have hcommitment : demoCommitment = BaseElement.new (hashList [2, 0xA11CE, 42]) := hash_eval [2, 0xA11CE, 42]
  unfold Title.inputs
  simp only [demoTitle, hcommitment]
  rfl

theorem demoLeaf_eval : demoLeaf demoExpiry = BaseElement.new (hashList demoInputs) := by
  rw [← demoTitle_leaf, Title.leaf, demoInputs_eval, hash_eval]

theorem demo_injOn_values : ((singleInputs demoInputs).dedup.map fun n => hashList n % modulus).Nodup := by
  decide +kernel

theorem demo_leaf_ne_zero : demoLeaf demoExpiry ≠ 0 := by
  rw [demoLeaf_eval]
  intro h
  have hne : hashList demoInputs % modulus ≠ 0 % modulus := by decide +kernel
  exact hne ((ZMod.natCast_eq_natCast_iff' _ _ _).1 (h.trans Nat.cast_zero.symm))

theorem demo_hashed : (demoTitles demoExpiry).hashed ⊆
    {x | ∃ n ∈ singleInputs demoInputs, x = n.map BaseElement.new} := by
  refine Set.union_subset ?_ ?_
  · rintro x ⟨t, ht, rfl⟩
    rw [List.mem_singleton.1 (show t ∈ [demoTitle demoExpiry] from ht)]
    exact ⟨_, List.mem_cons_self, demoInputs_eval⟩
  · rw [demoTitles_leafAt, demoLeaf_eval]
    exact treeInputs_single demoInputs

/-- With its default expiry the file of the command line answers a challenge for the demo record. -/
theorem cli_answers_iff_demo : ∃ out, main (fun _ _ => some [1, 254]) ["title_prover", "0", "0"] = some out ∧
    ∃ id proofBytes publicInputs ok,
      readArgs (fillId demoRequest.view.challengeId out.file) = some (id, proofBytes, publicInputs) ∧
      (verify (fun _ _ => .accepted) (request demoState owner 0 1) owner timeZero.ns id proofBytes publicInputs).1 =
        .ok ok := by
  have hargs : settings ["title_prover", "0", "0"] = some ⟨0, demoExpiry, BaseElement.new 0⟩ := by rfl
  have htitles : titlesOf (demoTrace.take demoRequest.index) = demoTitles demoExpiry := demo_titles
  have hinj : ((demoTitles demoExpiry).hashed ∪ (demoTitles demoExpiry).hashed).InjOn Air.hash := by
    rw [Set.union_self]
    refine (hash_injOn demo_injOn_values).mono (demo_hashed.trans ?_)
    rintro _ ⟨n, hn, rfl⟩
    exact ⟨n, List.mem_dedup.2 hn, rfl⟩
  have hne : ∀ t ∈ (demoTitles demoExpiry).entries, t.leaf ≠ 0 := by
    intro t ht
    rw [List.mem_singleton.1 (show t ∈ [demoTitle demoExpiry] from ht), demoTitle_leaf]
    exact demo_leaf_ne_zero
  rw [← htitles] at hne
  obtain ⟨out, hout, hiff⟩ := cli_answers_iff demo_run (.of_time demo_time) (by decide) (r := demoRequest) hargs
    (by constructor <;> decide) (by rw [htitles]; exact Nat.one_le_two_pow) (by rw [htitles]; exact hinj) hne
    demo_leaf_ne_zero (fun _ _ => .accepted) (fun _ _ => some [1, 254]) (fun cols pubInputs _ => ⟨[1, 254], rfl, rfl⟩)
    readArgs readsArgs_readArgs
  refine ⟨out, hout, (hiff timeZero (demo_open _)).2 ⟨?_, rfl, rfl, ?_⟩⟩
  · decide
  · rw [htitles]
    rfl

end Yaqeen.Prover
