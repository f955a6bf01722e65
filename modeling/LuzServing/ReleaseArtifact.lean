import LuzServing.Dictionaries
import LuzServing.PartialMaps
import Mathlib.Data.List.DropRight
import Mathlib.Data.Rat.Defs
import Mathlib.Logic.Function.Basic

/-!
# Verifying the release archive

The image is shipped as a tar archive: blobs, named by the sha256 of their content, which refer to
one another by it, from `index.json` down to the layers. `verify_release_artifact` hashes every blob
that is there, walks the references to find blobs that are not reached, and compares the hash of the
diffIDs with the one that the fleet runs.

What it says of the archive it does not check in full (`archiveSound_iff`). **Hashing goes over the
members that are there**: a config or a layer that is missing, or whose digest is not the name of a
hashed member, is no failure, nor is anything that hangs on another descriptor of `index.json` than
the first. Only members of one of the four types of regular files count as blobs when unreached
ones are sought. And the diffIDs are found by `manifest.json`, whose `Config` need not be the blob
of a config that `index.json` leads to.

Texts are lists of characters. A content is what its sha256 is of; how it is read as JSON is a
parameter, and yields nothing where Python raises.
-/

namespace LuzServing

universe u

/-! ## JSON -/

/-- What `json.loads` returns. -/
inductive Json : Type where
  /-- `null` -/
  | null
  /-- `true`, `false` -/
  | bool (b : Bool)
  /-- a number -/
  | num (q : ℚ)
  /-- a string -/
  | str (text : List Char)
  /-- an array -/
  | arr (elements : List Json)
  /-- an object; of two values of one key the last is kept -/
  | obj (fields : List (List Char × Json))

namespace Json

/-- `j[key]`, of a string. -/
def item (key : String) : Json → Option Json
  | .obj fields => (Dict.ofList fields).get? key.toList
  | _ => none

/-- `j[0]` -/
def first : Json → Option Json
  | .arr (x :: _) => some x
  | .str (c :: _) => some (.str [c])
  | _ => none

/-- What `for x in j` goes over. -/
def iter : Json → Option (List Json)
  | .arr elements => some elements
  | .str text => some (text.map fun c => .str [c])
  | .obj fields => some ((Dict.ofList fields).keys.map .str)
  | _ => none

/-- The string that a JSON value is, if it is one. -/
def text : Json → Option (List Char)
  | .str text => some text
  | _ => none

/-- `ent["digest"]` -/
def digest (ent : Json) : Option (List Char) := (ent.item "digest").bind text

/-- The descriptors that an index lists. -/
def descriptors (j : Json) : List Json := ((j.item "manifests").bind iter).getD []

/-- The digest of a manifest's config. -/
def configDigest (j : Json) : Option (List Char) := (j.item "config").bind digest

/-- The digests of the layers that a manifest lists. -/
def layerDigests (j : Json) : List (List Char) :=
  (((j.item "layers").bind iter).getD []).filterMap digest

/-- `cfg["rootfs"]["diff_ids"]`, which are joined. -/
def diffIds (cfg : Json) : Option (List (List Char)) := do
  let ids ← (← (← cfg.item "rootfs").item "diff_ids").iter
  ids.mapM text

end Json

/-! ## Archives -/

/-- sha256, taken to be injective. -/
structure Sha256 (C : Type u) : Type u where
  /-- `hexdigest` -/
  hexdigest : C → List Char
  /-- 64 characters -/
  length_hexdigest : ∀ c, (hexdigest c).length = 64
  /-- hexadecimal digits, and so no slash -/
  slash_notMem : ∀ c, '/' ∉ hexdigest c
  /-- no collisions -/
  injective : Function.Injective hexdigest

/-- How contents are read and written. -/
structure Codec (C : Type u) : Type u where
  /-- `json.loads` -/
  loads : C → Option Json
  /-- `json.dumps` -/
  dumps : Json → List Char
  /-- `encode` -/
  encode : List Char → C

/-- The type of a member. -/
inductive TarType : Type where
  /-- `REGTYPE` -/
  | reg
  /-- `AREGTYPE` -/
  | areg
  /-- `CONTTYPE` -/
  | cont
  /-- `GNUTYPE_SPARSE` -/
  | sparse
  /-- a link, a directory or a device -/
  | other
  deriving DecidableEq

/-- A member of the archive. -/
structure TarMember (C : Type u) : Type u where
  /-- `name` -/
  name : List Char
  /-- `size` -/
  size : ℕ
  /-- `type` -/
  type : TarType
  /-- what `extractfile` reads -/
  data : C
  deriving DecidableEq

/-- `isfile` -/
def TarMember.isfile {C : Type u} (m : TarMember C) : Bool := m.type != .other

/-- `SMALL` -/
def smallSize : ℕ := 4 <<< 20

/-- `"blobs/sha256/"` -/
def blobDir : List Char := "blobs/sha256/".toList

/-- `m.name.rsplit("/", 1)[-1]` -/
def baseName (name : List Char) : List Char := name.rtakeWhile (· != '/')

/-- `is_blob` -/
def isBlobName (name : List Char) : Bool :=
  blobDir.isPrefixOf name && (baseName name).length == 64

/-- `blob(digest)`: what follows the first colon; without one it raises. -/
def blobName (digest : List Char) : Option (List Char) :=
  match digest.dropWhile (· != ':') with
  | [] => none
  | _ :: hex => some (blobDir ++ hex)

/-! ## The verifier -/

section Verifier

variable {C : Type u} (sha : Sha256 C) (codec : Codec C) (members : List (TarMember C))

/-- `small`: the contents of small files, by name. -/
def smallFiles : Dict (List Char) C :=
  Dict.ofList ((members.filter fun m => m.isfile && decide (m.size < smallSize)).map
    fun m => (m.name, m.data))

/-- `failures` -/
def hashFailures : List (List Char) :=
  (members.filter fun m =>
    m.isfile && isBlobName m.name && sha.hexdigest m.data != baseName m.name).map TarMember.name

/-- `blobs` -/
def blobMembers : List (List Char) :=
  (members.filter fun m => blobDir.isPrefixOf m.name && m.type == .reg).map TarMember.name

/-- A member of `small`, read as JSON. -/
def loadSmall (name : List Char) : Option Json := ((smallFiles members).get? name).bind codec.loads

/-- `blob(ent["digest"])` -/
def entBlob (ent : Json) : Option (List Char) := ent.digest.bind blobName

/-- What a manifest refers to: its config and its layers. -/
def manifestRefs (man : Json) : Option (List (List Char)) := do
  let cfg ← entBlob (← man.item "config")
  let layers ← ((man.item "layers").getD (.arr [])).iter
  let ls ← layers.mapM entBlob
  pure (cfg :: ls)

/-- The loop over the nested manifests, with `refs`. There are none when a manifest is absent. -/
def walkManifests : List Json → List (List Char) → Option (Option (List (List Char)))
  | [], refs => some (some refs)
  | ent :: ents, refs => do
    let b ← entBlob ent
    match (smallFiles members).get? b with
    | none => pure none
    | some data =>
      let man ← codec.loads data
      walkManifests ents (refs ++ b :: (← manifestRefs man))

/-- The index blob: `index.json`'s first descriptor. -/
def topEntry (idx : Json) : Option Json := do (← idx.item "manifests").first

/-- `refs` -/
def referenceGraph (idx : Json) : Option (Option (List (List Char))) := do
  let top ← entBlob (← topEntry idx)
  let nested ← loadSmall codec members top
  let ents ← (← nested.item "manifests").iter
  walkManifests codec members ents [top]

/-- `cfg_path`: the first `Config` of `manifest.json`. -/
def cfgPath : Option (List Char) := do
  let legacy ← loadSmall codec members "manifest.json".toList
  (← (← legacy.first).item "Config").text

/-- The diffIDs that are compared: those of the file that `manifest.json` names. -/
def comparedDiffIds : Option (List (List Char)) := do
  (← loadSmall codec members (← cfgPath codec members)).diffIds

/-- `h16` of the joined diffIDs. -/
def contentIdentity (dids : List (List Char)) : List Char :=
  (sha.hexdigest (codec.encode ([' '].intercalate dids ++ ['\n']))).take 16

/-- `EXPECTED` -/
def expectedIdentity : List Char := "4ebef21b6aedbd70".toList

/-- `FALSE_EMPTY` -/
def falseEmpty : List (List Char) := ["e3b0c44298fc1c14".toList, "01ba4719c80b6fe9".toList]

/-- `main`, from the scan on: the exit code, or nothing where it raises. -/
def verifyReleaseArtifact : Option ℕ :=
  if hashFailures sha members ≠ [] then some 1
  else if ((smallFiles members).get? "index.json".toList).isNone ||
      ((smallFiles members).get? "manifest.json".toList).isNone then some 1
  else do
    match ← referenceGraph codec members (← loadSmall codec members "index.json".toList) with
    | none => pure 1
    | some refs =>
      if (blobMembers members).any fun b => b ∉ refs then pure 1
      else
        let dids ← comparedDiffIds codec members
        let got := contentIdentity sha codec dids
        if got ∈ falseEmpty then pure 1
        else if got ≠ expectedIdentity then pure 1
        else pure 0

/-! ## What it should verify -/

/-- A file of the archive has the name of a digest's blob. -/
def IsBlobOf (d : List Char) (m : TarMember C) : Prop :=
  m ∈ members ∧ m.isfile = true ∧ blobName d = some m.name

/-- The blob of a descriptor reads as `j`. -/
def Describes (ent j : Json) : Prop :=
  ∃ d m, ent.digest = some d ∧ IsBlobOf members d m ∧ codec.loads m.data = some j

/-- The descriptors of `index.json`, and those of the indices that they describe. -/
inductive Listed : Json → Prop where
  /-- of `index.json` -/
  | root {idx ent : Json} : loadSmall codec members "index.json".toList = some idx →
      ent ∈ idx.descriptors → Listed ent
  /-- of an index -/
  | nested {ent j ent' : Json} : Listed ent → Describes codec members ent j →
      ent' ∈ j.descriptors → Listed ent'

/-- The digests that are reached: of the descriptors, and of their configs and layers. -/
def ReachesDigest (d : List Char) : Prop :=
  ∃ ent, Listed codec members ent ∧
    (ent.digest = some d ∨ ∃ j, Describes codec members ent j ∧
      (j.configDigest = some d ∨ d ∈ j.layerDigests))

/-- `kind` is `"image"`. -/
def isImage (ent : Json) : Prop := ¬ "attestation-manifest".toList <:+: codec.dumps ent

/-- `d` is the digest of an image's config. -/
def ImageConfig (d : List Char) : Prop :=
  ∃ ent j, Listed codec members ent ∧ isImage codec ent ∧ Describes codec members ent j ∧
    j.configDigest = some d

/-- The part of it that is about the store: nothing is missing from it, and nothing is left over. -/
structure ArchiveClosed : Prop where
  /-- what is reached is there, and its content has the digest -/
  present : ∀ d, ReachesDigest codec members d →
    ∃ m, IsBlobOf members d m ∧ d = "sha256:".toList ++ sha.hexdigest m.data
  /-- every blob is reached -/
  reached : ∀ m ∈ members, m.isfile = true → blobDir.isPrefixOf m.name = true →
    ∃ d, ReachesDigest codec members d ∧ blobName d = some m.name

/-- What an exit status of zero is to say. -/
structure ArchiveSound : Prop extends ArchiveClosed sha codec members where
  /-- the diffIDs that are compared are those of an image's config -/
  identity : ∃ d m, ImageConfig codec members d ∧ IsBlobOf members d m ∧
    d = "sha256:".toList ++ sha.hexdigest m.data ∧
    ∃ dids, comparedDiffIds codec members = some dids ∧
      (codec.loads m.data).bind Json.diffIds = some dids

/-- A digest as the names of blobs are made from. -/
def CanonicalDigest (d : List Char) : Prop :=
  ∃ hex, d = "sha256:".toList ++ hex ∧ hex.length = 64 ∧ '/' ∉ hex

/-- The digests of the descriptors that the verifier walks: the first of `index.json`, and those of
its index. -/
def Walked (d : List Char) : Prop :=
  ∃ idx top, loadSmall codec members "index.json".toList = some idx ∧ topEntry idx = some top ∧
    (top.digest = some d ∨ ∃ j, (entBlob top).bind (loadSmall codec members) = some j ∧
      ∃ ent ∈ j.descriptors, ent.digest = some d)

/-- What the verifier leaves to the archive, of the store. -/
structure ArchiveRegular : Prop where
  /-- digests are of sha256 -/
  canonical : ∀ d, ReachesDigest codec members d → CanonicalDigest d
  /-- what it does not walk is there -/
  present : ∀ d, ReachesDigest codec members d →
    Walked codec members d ∨ ∃ m, IsBlobOf members d m
  /-- the blobs of the other types of regular files are reached -/
  reached : ∀ m ∈ members, m.isfile = true → m.type ≠ .reg → blobDir.isPrefixOf m.name = true →
    ∃ d, ReachesDigest codec members d ∧ blobName d = some m.name

/-- What it leaves of the names: `manifest.json`'s first `Config` is that of an image config's
blob. -/
def ConfigNamed : Prop :=
  ∃ d path, ImageConfig codec members d ∧ cfgPath codec members = some path ∧
    blobName d = some path

/-- No two files of different names have the same diffIDs. -/
def DiffIdsApart : Prop :=
  ∀ m ∈ members, ∀ m' ∈ members, m.isfile = true → m'.isfile = true → ∀ dids,
    (codec.loads m.data).bind Json.diffIds = some dids →
      (codec.loads m'.data).bind Json.diffIds = some dids → m.name = m'.name

variable {sha codec members}

/-! ## Names -/

/-- The name of a blob ends in the digits of its digest. -/
theorem baseName_blobDir {hex : List Char} (h : '/' ∉ hex) : baseName (blobDir ++ hex) = hex := by
  have hrev : (blobDir ++ hex).reverse = hex.reverse ++ '/' :: "blobs/sha256".toList.reverse := by
    rw [List.reverse_append]
    rfl
  have hdigits : ∀ c ∈ hex.reverse, (c != '/') = true := fun c hc =>
    bne_iff_ne.mpr fun hc' => h (hc' ▸ List.mem_reverse.mp hc)
  rw [baseName, List.rtakeWhile, hrev, List.takeWhile_append_of_pos hdigits,
    List.takeWhile_cons_of_neg (by decide), List.append_nil, List.reverse_reverse]

/-- What the verifier keeps as a small file is the content of a member of the archive. -/
theorem mem_of_smallFiles {name : List Char} {data : C}
    (h : (smallFiles members).get? name = some data) :
    ∃ m ∈ members, m.isfile = true ∧ m.name = name ∧ m.data = data := by
  obtain ⟨m, hm, heq⟩ := List.mem_map.mp (Dict.mem_of_get?_ofList h)
  obtain ⟨hmem, hkeep⟩ := List.mem_filter.mp hm
  cases heq
  exact ⟨m, hmem, (Bool.and_eq_true_iff.mp hkeep).1, rfl, rfl⟩

/-- Where no hash fails, the blob of a canonical digest has it. -/
theorem eq_hexdigest_of_isBlobOf (hok : hashFailures sha members = []) {d : List Char}
    (hcanonical : CanonicalDigest d) {m : TarMember C} (h : IsBlobOf members d m) :
    d = "sha256:".toList ++ sha.hexdigest m.data := by
  obtain ⟨hex, rfl, hlen, hslash⟩ := hcanonical
  obtain ⟨hmem, hfile, hname⟩ := h
  have hname : m.name = blobDir ++ hex := (Option.some.inj hname).symm
  have hbase : baseName m.name = hex := hname ▸ baseName_blobDir hslash
  have hblob : isBlobName m.name = true := by
    rw [isBlobName, Bool.and_eq_true, hbase, hlen, hname]
    exact ⟨List.isPrefixOf_iff_prefix.mpr (List.prefix_append ..), rfl⟩
  have hnot := List.filter_eq_nil_iff.mp (List.map_eq_nil_iff.mp hok) m hmem
  rw [hfile, hblob, hbase] at hnot
  have heq : sha.hexdigest m.data = hex := not_not.mp fun hne => hnot (bne_iff_ne.mpr hne)
  rw [heq]

/-! ## The walk -/

/-- The name of a descriptor's blob is made from the digest that the descriptor has. -/
theorem entBlob_eq_some {ent : Json} {b : List Char} (h : entBlob ent = some b) :
    ∃ d, ent.digest = some d ∧ blobName d = some b :=
  Option.bind_eq_some_iff.mp h

/-- A file that is read under the name of a descriptor's blob is what the descriptor describes. -/
theorem describes_of_loadSmall {ent j : Json} {b : List Char} (hb : entBlob ent = some b)
    (hj : loadSmall codec members b = some j) : Describes codec members ent j := by
  obtain ⟨d, hd, hname⟩ := entBlob_eq_some hb
  obtain ⟨data, hdata, hloads⟩ := Option.bind_eq_some_iff.mp hj
  obtain ⟨m, hmem, hfile, hmname, rfl⟩ := mem_of_smallFiles hdata
  exact ⟨d, m, hd, ⟨hmem, hfile, hname.trans (congrArg some hmname.symm)⟩, hloads⟩

/-- What a manifest refers to are its config and its layers. -/
theorem exists_of_mem_manifestRefs {man : Json} {rs : List (List Char)}
    (h : manifestRefs man = some rs) {r : List Char} (hr : r ∈ rs) :
    ∃ d, blobName d = some r ∧ (man.configDigest = some d ∨ d ∈ man.layerDigests) := by
  simp only [manifestRefs, Option.bind_eq_bind, Option.bind_eq_some_iff, Option.pure_def] at h
  obtain ⟨cfg, hcfg, b, hb, layers, hlayers, ls, hls, hrs⟩ := h
  cases hrs
  rcases List.mem_cons.mp hr with rfl | hmem
  · obtain ⟨d, hd, hname⟩ := entBlob_eq_some hb
    refine ⟨d, hname, Or.inl ?_⟩
    rw [Json.configDigest, hcfg]
    exact hd
  · obtain ⟨l, hl, hlb⟩ := exists_of_mem_mapM hls hmem
    obtain ⟨d, hd, hname⟩ := entBlob_eq_some hlb
    refine ⟨d, hname, Or.inr ?_⟩
    rw [Json.layerDigests]
    cases hitem : man.item "layers" with
    | none =>
      rw [hitem] at hlayers
      cases hlayers
      cases hl
    | some j =>
      rw [hitem] at hlayers
      have hiter : j.iter = some layers := hlayers
      rw [Option.bind_some, hiter]
      exact List.mem_filterMap.mpr ⟨l, hl, hd⟩

/-- The descriptors of a walk that ends, and what it collects. -/
theorem walkManifests_spec {ents : List Json} {refs refs' : List (List Char)}
    (h : walkManifests codec members ents refs = some (some refs')) :
    (∀ ent ∈ ents, ∃ b man, entBlob ent = some b ∧ loadSmall codec members b = some man) ∧
    ∀ r ∈ refs', r ∈ refs ∨ ∃ ent ∈ ents, ∃ b man rs, entBlob ent = some b ∧
      loadSmall codec members b = some man ∧ manifestRefs man = some rs ∧ r ∈ b :: rs := by
  induction ents generalizing refs with
  | nil =>
    cases h
    exact ⟨fun ent hent => absurd hent List.not_mem_nil, fun r => Or.inl⟩
  | cons ent ents ih =>
    rw [walkManifests] at h
    obtain ⟨b, hb, h⟩ := Option.bind_eq_some_iff.mp h
    cases hdata : (smallFiles members).get? b with
    | none =>
      simp only [hdata] at h
      cases h
    | some data =>
      simp only [hdata] at h
      obtain ⟨man, hman, h⟩ := Option.bind_eq_some_iff.mp h
      obtain ⟨rs, hrs, h⟩ := Option.bind_eq_some_iff.mp h
      have hload : loadSmall codec members b = some man := by
        rw [loadSmall, hdata]
        exact hman
      obtain ⟨hents, hrefs⟩ := ih h
      constructor
      · intro ent' hent'
        rcases List.mem_cons.mp hent' with rfl | hmem
        · exact ⟨b, man, hb, hload⟩
        · exact hents ent' hmem
      · intro r hr
        rcases hrefs r hr with hmem | ⟨ent', hent', hrest⟩
        · rcases List.mem_append.mp hmem with hold | hnew
          · exact Or.inl hold
          · exact Or.inr ⟨ent, List.mem_cons_self .., b, man, rs, hb, hload, hrs, hnew⟩
        · exact Or.inr ⟨ent', List.mem_cons_of_mem _ hent', hrest⟩

/-- The descriptor that the verifier starts from is one of the descriptors of the index. -/
theorem topEntry_mem {idx top : Json} (h : topEntry idx = some top) : top ∈ idx.descriptors := by
  obtain ⟨j, hj, hfirst⟩ := Option.bind_eq_some_iff.mp h
  rw [Json.descriptors, hj, Option.bind_some]
  match j, hfirst with
  | .arr (x :: xs), hfirst =>
    cases hfirst
    exact List.mem_cons_self ..
  | .str (c :: cs), hfirst =>
    cases hfirst
    exact List.mem_cons_self ..

/-- What the graph of references gives when it is built: the nested index and the walk over its
manifests. -/
theorem referenceGraph_spec {idx : Json} {refs : List (List Char)}
    (h : referenceGraph codec members idx = some (some refs)) :
    ∃ top b nested, topEntry idx = some top ∧ entBlob top = some b ∧
      loadSmall codec members b = some nested ∧
      walkManifests codec members nested.descriptors [b] = some (some refs) := by
  obtain ⟨top, htop, h⟩ := Option.bind_eq_some_iff.mp h
  obtain ⟨b, hb, h⟩ := Option.bind_eq_some_iff.mp h
  obtain ⟨nested, hnested, h⟩ := Option.bind_eq_some_iff.mp h
  obtain ⟨listed, hlisted, h⟩ := Option.bind_eq_some_iff.mp h
  obtain ⟨ents, hents, h⟩ := Option.bind_eq_some_iff.mp h
  refine ⟨top, b, nested, htop, hb, hnested, ?_⟩
  rw [Json.descriptors, hlisted, Option.bind_some, hents]
  exact h

/-- **What the verifier collects is reached** from the index by its descriptors. -/
theorem reaches_of_mem_refs {idx : Json} {refs : List (List Char)}
    (hidx : loadSmall codec members "index.json".toList = some idx)
    (h : referenceGraph codec members idx = some (some refs)) {r : List Char} (hr : r ∈ refs) :
    ∃ d, ReachesDigest codec members d ∧ blobName d = some r := by
  obtain ⟨top, b, nested, htop, hb, hnested, hwalk⟩ := referenceGraph_spec h
  have hlisted : Listed codec members top := .root hidx (topEntry_mem htop)
  rcases (walkManifests_spec hwalk).2 r hr with
    hmem | ⟨ent, hent, b', man, rs, hb', hman, hrs, hmem⟩
  · obtain ⟨d, hd, hname⟩ := entBlob_eq_some hb
    exact ⟨d, ⟨top, hlisted, Or.inl hd⟩, List.mem_singleton.mp hmem ▸ hname⟩
  · have hent : Listed codec members ent :=
      hlisted.nested (describes_of_loadSmall hb hnested) hent
    rcases List.mem_cons.mp hmem with rfl | hmem
    · obtain ⟨d, hd, hname⟩ := entBlob_eq_some hb'
      exact ⟨d, ⟨ent, hent, Or.inl hd⟩, hname⟩
    · obtain ⟨d, hname, hd⟩ := exists_of_mem_manifestRefs hrs hmem
      exact ⟨d, ⟨ent, hent, Or.inr ⟨man, describes_of_loadSmall hb' hman, hd⟩⟩, hname⟩

/-- Each digest that the verifier walks is the name of a blob that is a member of the archive. -/
theorem exists_of_walked {idx : Json} {refs : List (List Char)}
    (hidx : loadSmall codec members "index.json".toList = some idx)
    (h : referenceGraph codec members idx = some (some refs)) {d : List Char}
    (hd : Walked codec members d) : ∃ m, IsBlobOf members d m := by
  obtain ⟨top, b, nested, htop, hb, hnested, hwalk⟩ := referenceGraph_spec h
  -- a descriptor whose file is read has a member
  have hmember : ∀ {ent j : Json} {name : List Char}, ent.digest = some d →
      entBlob ent = some name → loadSmall codec members name = some j →
      ∃ m, IsBlobOf members d m := by
    intro ent j name hdigest hname hload
    obtain ⟨d', m, hd', hm, -⟩ := describes_of_loadSmall hname hload
    cases hdigest.symm.trans hd'
    exact ⟨m, hm⟩
  obtain ⟨idx', top', hidx', htop', hcase⟩ := hd
  cases hidx.symm.trans hidx'
  cases htop.symm.trans htop'
  rcases hcase with hdigest | ⟨j, hj, ent, hent, hdigest⟩
  · exact hmember hdigest hb hnested
  · rw [hb] at hj
    cases hnested.symm.trans hj
    obtain ⟨name, man, hname, hman⟩ := (walkManifests_spec hwalk).1 ent hent
    exact hmember hdigest hname hman

/-! ## The exit status -/

/-- Where the verifier exits with zero, no hash has failed, the walk has gone through and has found
every blob, and there were diffIDs to compare. -/
theorem verifyReleaseArtifact_eq_zero
    (h : verifyReleaseArtifact sha codec members = some 0) :
    hashFailures sha members = [] ∧ ∃ idx refs dids,
      loadSmall codec members "index.json".toList = some idx ∧
      referenceGraph codec members idx = some (some refs) ∧
      (∀ b ∈ blobMembers members, b ∈ refs) ∧ comparedDiffIds codec members = some dids := by
  rw [verifyReleaseArtifact] at h
  split_ifs at h with hfail hnone
  · cases h
  · cases h
  · obtain ⟨idx, hidx, h⟩ := Option.bind_eq_some_iff.mp h
    obtain ⟨graph, hgraph, h⟩ := Option.bind_eq_some_iff.mp h
    cases graph with
    | none => cases h
    | some refs =>
      dsimp only at h
      split_ifs at h with hrefs
      · cases h
      · obtain ⟨dids, hdids, -⟩ := Option.bind_eq_some_iff.mp h
        refine ⟨not_not.mp hfail, idx, refs, dids, hidx, hgraph, fun b hb => ?_, hdids⟩
        by_contra hmissing
        exact hrefs (List.any_eq_true.mpr ⟨b, hb, decide_eq_true hmissing⟩)

/-- The diffIDs that are compared are those of a member that has the name in `manifest.json`. -/
theorem comparedDiffIds_eq_some {dids : List (List Char)}
    (h : comparedDiffIds codec members = some dids) :
    ∃ m ∈ members, m.isfile = true ∧ cfgPath codec members = some m.name ∧
      (codec.loads m.data).bind Json.diffIds = some dids := by
  obtain ⟨path, hpath, h⟩ := Option.bind_eq_some_iff.mp h
  obtain ⟨cfg, hcfg, hdids⟩ := Option.bind_eq_some_iff.mp h
  obtain ⟨data, hdata, hloads⟩ := Option.bind_eq_some_iff.mp hcfg
  obtain ⟨m, hm, hfile, hname, rfl⟩ := mem_of_smallFiles hdata
  exact ⟨m, hm, hfile, hname.symm ▸ hpath, Option.bind_eq_some_iff.mpr ⟨cfg, hloads, hdids⟩⟩

/-- The config of an image is reached through the manifest of the image. -/
theorem ImageConfig.reaches {d : List Char} (h : ImageConfig codec members d) :
    ReachesDigest codec members d := by
  obtain ⟨ent, j, hlisted, -, hj, hd⟩ := h
  exact ⟨ent, hlisted, Or.inr ⟨j, hj, Or.inl hd⟩⟩

/-- Where the verifier exits with zero, the store is closed exactly when it is regular in what the
verifier does not check. -/
theorem archiveClosed_iff (h : verifyReleaseArtifact sha codec members = some 0) :
    ArchiveClosed sha codec members ↔ ArchiveRegular codec members := by
  obtain ⟨hok, idx, refs, -, hidx, hgraph, hblobs, -⟩ := verifyReleaseArtifact_eq_zero h
  constructor
  · intro hclosed
    refine ⟨fun d hd => ?_, fun d hd => ?_,
      fun m hm hfile _ hdir => hclosed.reached m hm hfile hdir⟩
    · obtain ⟨m, -, heq⟩ := hclosed.present d hd
      exact ⟨_, heq, sha.length_hexdigest _, sha.slash_notMem _⟩
    · obtain ⟨m, hm, -⟩ := hclosed.present d hd
      exact Or.inr ⟨m, hm⟩
  · intro hregular
    refine ⟨fun d hd => ?_, fun m hm hfile hdir => ?_⟩
    · have hm : ∃ m, IsBlobOf members d m :=
        (hregular.present d hd).elim (exists_of_walked hidx hgraph) id
      obtain ⟨m, hm⟩ := hm
      exact ⟨m, hm, eq_hexdigest_of_isBlobOf hok (hregular.canonical d hd) hm⟩
    · by_cases htype : m.type = .reg
      · refine reaches_of_mem_refs hidx hgraph (hblobs _ ?_)
        refine List.mem_map.mpr ⟨m, List.mem_filter.mpr ⟨hm, ?_⟩, rfl⟩
        rw [hdir, htype]
        rfl
      · exact hregular.reached m hm hfile htype hdir

/-- If in addition `manifest.json` names the blob of an image's config, the file of that name is the
blob: it hashes to its name. -/
theorem ArchiveRegular.sound (h : verifyReleaseArtifact sha codec members = some 0)
    (hregular : ArchiveRegular codec members) (hnamed : ConfigNamed codec members) :
    ArchiveSound sha codec members := by
  obtain ⟨hok, -, -, dids, -, -, -, hdids⟩ := verifyReleaseArtifact_eq_zero h
  obtain ⟨m, hm, hfile, hpath, hread⟩ := comparedDiffIds_eq_some hdids
  obtain ⟨d, path, hconfig, hpath', hname⟩ := hnamed
  obtain rfl := Option.some.inj (hpath'.symm.trans hpath)
  have hblob : IsBlobOf members d m := ⟨hm, hfile, hname⟩
  exact ⟨(archiveClosed_iff h).mpr hregular, d, m, hconfig, hblob,
    eq_hexdigest_of_isBlobOf hok (hregular.canonical d hconfig.reaches) hblob, dids, hdids, hread⟩

/-- Where diffIDs tell files apart, only the blob of an image's config can have its diffIDs. -/
theorem ArchiveSound.configNamed (hsound : ArchiveSound sha codec members)
    (hapart : DiffIdsApart codec members) : ConfigNamed codec members := by
  obtain ⟨d, m, hconfig, ⟨hm, hfile, hname⟩, -, dids, hdids, hread⟩ := hsound.identity
  obtain ⟨m', hm', hfile', hpath, hread'⟩ := comparedDiffIds_eq_some hdids
  exact ⟨d, m.name, hconfig, (hapart m' hm' m hm hfile' hfile dids hread' hread) ▸ hpath, hname⟩

/-- **Where the verifier exits with zero**, the store is complete and has nothing that is not
reached exactly when every digest that is reached is one of sha256, the configs, layers and
unwalked manifests are there, and the blobs of unusual types are reached. The diffIDs that were
compared are those of an image as well if `manifest.json` names the blob of an image's config;
where no two files have the same diffIDs, only then. -/
theorem archiveSound_iff (sha : Sha256 C) (codec : Codec C) (members : List (TarMember C))
    (h : verifyReleaseArtifact sha codec members = some 0) :
    (ArchiveClosed sha codec members ↔ ArchiveRegular codec members) ∧
      (ArchiveRegular codec members → ConfigNamed codec members →
        ArchiveSound sha codec members) ∧
      (DiffIdsApart codec members → (ArchiveSound sha codec members ↔
        ArchiveRegular codec members ∧ ConfigNamed codec members)) := by
  refine ⟨archiveClosed_iff h, fun hregular hnamed => hregular.sound h hnamed, fun hapart => ?_⟩
  constructor
  · intro hsound
    exact ⟨(archiveClosed_iff h).mp hsound.toArchiveClosed, hsound.configNamed hapart⟩
  · rintro ⟨hregular, hnamed⟩
    exact hregular.sound h hnamed

end Verifier

/-! ## A small archive -/

/-- The contents of an archive of one image. -/
inductive TinyBlob : Type where
  /-- `index.json` -/
  | index
  /-- `manifest.json` -/
  | legacy
  /-- the index -/
  | top
  /-- the image's manifest -/
  | manifest
  /-- its config -/
  | config
  /-- the diffIDs, joined -/
  | ids
  deriving DecidableEq

namespace TinyBlob

/-- Hashes that differ, and that of the diffIDs which is expected. -/
def hexdigest : TinyBlob → List Char
  | index => List.replicate 63 '0' ++ ['1']
  | legacy => List.replicate 63 '0' ++ ['2']
  | top => List.replicate 63 '0' ++ ['3']
  | manifest => List.replicate 63 '0' ++ ['4']
  | config => List.replicate 63 '0' ++ ['5']
  | ids => expectedIdentity ++ List.replicate 48 '0'

theorem length_hexdigest (c : TinyBlob) : c.hexdigest.length = 64 := by
  cases c <;> rfl

theorem slash_notMem_hexdigest (c : TinyBlob) : '/' ∉ c.hexdigest := by
  cases c <;> decide +kernel

theorem hexdigest_injective : Function.Injective hexdigest := by
  intro c c'
  cases c <;> cases c' <;> decide +kernel

/-- The sha256 of the example's contents, which tells them apart. -/
def sha : Sha256 TinyBlob where
  hexdigest := hexdigest
  length_hexdigest := length_hexdigest
  slash_notMem := slash_notMem_hexdigest
  injective := hexdigest_injective

/-- The digest of a content. -/
def digestOf (c : TinyBlob) : List Char := "sha256:".toList ++ c.hexdigest

/-- A descriptor that has a digest and nothing else. -/
def descriptor (digest : List Char) : Json := .obj [("digest".toList, .str digest)]

/-- The contents as JSON, for an image with some layers. -/
def loads (layers : List Json) : TinyBlob → Option Json
  | index => some (.obj [("manifests".toList, .arr [descriptor (digestOf top)])])
  | legacy => some (.arr [.obj [("Config".toList, .str (blobDir ++ hexdigest config))]])
  | top => some (.obj [("manifests".toList, .arr [descriptor (digestOf manifest)])])
  | manifest =>
    some (.obj [("config".toList, descriptor (digestOf config)), ("layers".toList, .arr layers)])
  | config =>
    some (.obj [("rootfs".toList, .obj [("diff_ids".toList, .arr [.str ['a']])])])
  | ids => none

/-- How the contents of the example are read as JSON. -/
def codec (layers : List Json) : Codec TinyBlob where
  loads := loads layers
  dumps := fun _ => []
  encode := fun _ => ids

/-- The member of a blob. -/
def blob (c : TinyBlob) : TarMember TinyBlob := ⟨blobDir ++ c.hexdigest, 100, .reg, c⟩

/-- The archive; it has no layer. -/
def members : List (TarMember TinyBlob) :=
  [⟨"index.json".toList, 100, .reg, index⟩, ⟨"manifest.json".toList, 100, .reg, legacy⟩,
    blob top, blob manifest, blob config]

/-- The verifier exits with zero on the example's archive, with a layer that is missing and without
layers. -/
theorem verifyReleaseArtifact_members :
    verifyReleaseArtifact sha (codec []) members = some 0 ∧
      verifyReleaseArtifact sha (codec [descriptor (digestOf ids)]) members = some 0 := by
  decide +kernel

variable (layers : List Json)

/-- The nested index of the example is listed in the index of its archive. -/
theorem listed_top : Listed (codec layers) members (descriptor (digestOf top)) :=
  .root rfl (List.mem_singleton_self _)

/-- The manifest of the example is listed, through the nested index of its archive. -/
theorem listed_manifest : Listed (codec layers) members (descriptor (digestOf manifest)) :=
  .nested (listed_top layers)
    ⟨_, blob top, rfl, ⟨by decide +kernel, rfl, rfl⟩, rfl⟩ (List.mem_singleton_self _)

/-- The member that holds the manifest is what the manifest's descriptor describes. -/
theorem describes_manifest :
    Describes (codec layers) members (descriptor (digestOf manifest))
      (.obj [("config".toList, descriptor (digestOf config)), ("layers".toList, .arr layers)]) :=
  ⟨_, blob manifest, rfl, ⟨by decide +kernel, rfl, rfl⟩, rfl⟩

/-- In the example, the members that the two digests name hold the nested index and the manifest. -/
theorem data_eq_of_name : ∀ m ∈ members,
    (blobName (digestOf top) = some m.name → m.data = top) ∧
      (blobName (digestOf manifest) = some m.name → m.data = manifest) := by
  decide +kernel

/-- In the example without layers only the nested index and the manifest are listed. -/
theorem listed_cases {ent : Json} (h : Listed (codec []) members ent) :
    ent = descriptor (digestOf top) ∨ ent = descriptor (digestOf manifest) := by
  induction h with
  | root hidx hent =>
    cases hidx
    exact Or.inl (List.mem_singleton.mp hent)
  | nested _ hdescribes hent ih =>
    obtain ⟨d, m, hd, ⟨hmem, -, hname⟩, hload⟩ := hdescribes
    rcases ih with rfl | rfl
    · cases hd
      rw [(data_eq_of_name m hmem).1 hname] at hload
      cases hload
      exact Or.inr (List.mem_singleton.mp hent)
    · cases hd
      rw [(data_eq_of_name m hmem).2 hname] at hload
      cases hload
      cases hent

/-- In the example without layers the digests that are reached are those of the index, the manifest
and the config. -/
theorem reaches_cases {d : List Char} (h : ReachesDigest (codec []) members d) :
    d = digestOf top ∨ d = digestOf manifest ∨ d = digestOf config := by
  obtain ⟨ent, hlisted, hd | ⟨j, ⟨d', m, hd', ⟨hmem, -, hname⟩, hload⟩, hrefs⟩⟩ := h
  · rcases listed_cases hlisted with rfl | rfl
    · exact Or.inl (Option.some.inj hd).symm
    · exact Or.inr (Or.inl (Option.some.inj hd).symm)
  · rcases listed_cases hlisted with rfl | rfl
    · cases hd'
      rw [(data_eq_of_name m hmem).1 hname] at hload
      cases hload
      rcases hrefs with hconfig | hlayer
      · cases hconfig
      · cases hlayer
    · cases hd'
      rw [(data_eq_of_name m hmem).2 hname] at hload
      cases hload
      rcases hrefs with hconfig | hlayer
      · exact Or.inr (Or.inr (Option.some.inj hconfig).symm)
      · cases hlayer

end TinyBlob

open TinyBlob in
/-- The example's archive of an image without layers is sound, as the verifier says of it. -/
theorem archiveSound_tiny : ArchiveSound sha (codec []) members := by
  refine (archiveSound_iff sha (codec []) members verifyReleaseArtifact_members.1).2.1
    ⟨fun d hd => ?_, fun d hd => Or.inr ?_, fun m hm _ htype _ => ?_⟩ ?_
  · rcases reaches_cases hd with rfl | rfl | rfl
    · exact ⟨_, rfl, rfl, slash_notMem_hexdigest _⟩
    · exact ⟨_, rfl, rfl, slash_notMem_hexdigest _⟩
    · exact ⟨_, rfl, rfl, slash_notMem_hexdigest _⟩
  · rcases reaches_cases hd with rfl | rfl | rfl
    · exact ⟨blob top, by decide +kernel, rfl, rfl⟩
    · exact ⟨blob manifest, by decide +kernel, rfl, rfl⟩
    · exact ⟨blob config, by decide +kernel, rfl, rfl⟩
  · have hreg : ∀ m ∈ members, m.type = .reg := by decide +kernel
    exact absurd (hreg m hm) htype
  · exact ⟨digestOf config, _,
      ⟨_, _, listed_manifest [], by unfold isImage; decide +kernel, describes_manifest [], rfl⟩,
      rfl, rfl⟩

open TinyBlob in
/-- **An image whose layer is not in the archive: the verifier exits with zero.** -/
theorem not_archiveSound :
    ∃ (C : Type) (sha : Sha256 C) (codec : Codec C) (members : List (TarMember C)),
      verifyReleaseArtifact sha codec members = some 0 ∧ ¬ ArchiveSound sha codec members := by
  refine ⟨TinyBlob, sha, codec [descriptor (digestOf ids)], members,
    verifyReleaseArtifact_members.2, fun h => ?_⟩
  have hlayer : ReachesDigest (codec [descriptor (digestOf ids)]) members (digestOf ids) :=
    ⟨_, listed_manifest _, Or.inr ⟨_, describes_manifest _, Or.inr (List.mem_singleton_self _)⟩⟩
  obtain ⟨m, ⟨hm, -, hname⟩, -⟩ := h.present _ hlayer
  have hnone : ∀ m ∈ members, blobName (digestOf ids) ≠ some m.name := by decide +kernel
  exact hnone m hm hname

end LuzServing
