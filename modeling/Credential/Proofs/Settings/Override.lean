import Credential.Proofs.Results
import Credential.Proofs.Settings.Content
import Credential.Settings.Basic
/-!
A variable laid over a file: one text of the configuration is replaced, and all else stays.
-/

namespace Credential

open Settings

variable {c d : Configuration} {f p : Configuration.Field} {v w : Value} {u t : String}
  {g entries : List (String × Value)}

namespace Configuration

namespace Field

def texts : List Field := [keyAlias, storeType, storePassword, keyPassword, signatureAlgorithm]

def setText (u : String) (c : Configuration) : Field → Configuration
  | keyAlias => { c with keyAlias := u }
  | storeType => { c with storeType := u }
  | storePassword => { c with storePassword := u }
  | keyPassword => { c with keyPassword := u }
  | signatureAlgorithm => { c with signatureAlgorithm := u }
  | _ => c

def variableName (f : Field) : String := "KEYSTORE_GENERATION__" ++ Text.upper f.key

theorem set_text (hf : f ∈ texts) (c : Configuration) (v : Value) :
    f.set c v = v.toText.map fun u => f.setText u c := by
  cases f <;> first | rfl | simp [texts] at hf

theorem set_setText (hne : p ≠ f) (u : String) (c : Configuration) (v : Value) :
    p.set (f.setText u c) v = (p.set c v).map (f.setText u ·) := by
  have hmap {α : Type} (r : Decoded α) {k l : α → Configuration}
      (h : ∀ a, k a = f.setText u (l a)) : r.map k = (r.map l).map (f.setText u ·) := by
    cases r with
    | error e => rfl
    | ok a => exact congrArg Except.ok (h a)
  cases p <;> exact hmap _ fun _ => by cases f <;> first | rfl | exact absurd rfl hne

theorem setText_setText (f : Field) (u t : String) (c : Configuration) :
    f.setText u (f.setText t c) = f.setText u c := by
  cases f <;> rfl

theorem key_injective (h : p.key = f.key) : p = f := by
  revert h
  cases p <;> cases f <;> decide

theorem mem_byKey (f : Field) : f ∈ byKey := by
  cases f <;> decide

theorem keysOf?_variableName (f : Field) :
    Environment.keysOf? f.variableName = some ["generation", f.key] := by
  cases f <;> decide +kernel

end Field

theorem setByKey_insert_ne (hne : p ≠ f) (v : Value) (c : Configuration) :
    setByKey (Value.insert f.key v g) c p = setByKey g c p := by
  unfold setByKey
  rw [Value.lookup_insert, if_neg (mt Field.key_injective hne)]

theorem setByKey_insert_text (hf : f ∈ Field.texts) (v : Value) (c : Configuration) :
    setByKey (Value.insert f.key v g) c f = (under f.key v.toText).map fun u => f.setText u c := by
  unfold setByKey
  rw [Value.lookup_insert, if_pos rfl]
  show under f.key (f.set c v) = _
  rw [Field.set_text hf]
  cases v.toText <;> rfl

theorem setByKey_setText (hne : p ≠ f) (u : String) (c : Configuration) :
    setByKey g (f.setText u c) p = (setByKey g c p).map (f.setText u ·) := by
  unfold setByKey
  split
  · rw [Field.set_setText hne]
    cases p.set c _ <;> rfl
  · rfl

theorem setText_of_setByKey (hf : f ∈ Field.texts) (h : setByKey g c f = .ok d) (u : String) :
    f.setText u d = f.setText u c := by
  unfold setByKey at h
  split at h
  · rename_i v _
    rw [Field.set_text hf] at h
    cases hread : v.toText with
    | error e =>
      rw [hread] at h
      cases h
    | ok t =>
      rw [hread] at h
      cases h
      exact f.setText_setText u t c
  · cases h
    rfl

theorem foldlM_insert_ne {fs : List Field} (hfs : f ∉ fs) (v : Value) (c : Configuration) :
    fs.foldlM (setByKey (Value.insert f.key v g)) c = fs.foldlM (setByKey g) c := by
  induction fs generalizing c with
  | nil => rfl
  | cons p fs ih =>
    obtain ⟨hne, hrest⟩ := List.ne_and_not_mem_of_not_mem_cons hfs
    rw [List.foldlM_cons, List.foldlM_cons, setByKey_insert_ne hne.symm]
    cases setByKey g c p with
    | error e => rfl
    | ok d => exact ih hrest d

theorem foldlM_setText {fs : List Field} (hfs : f ∉ fs) (u : String) (c : Configuration) :
    fs.foldlM (setByKey g) (f.setText u c) = (fs.foldlM (setByKey g) c).map (f.setText u ·) := by
  induction fs generalizing c with
  | nil => rfl
  | cons p fs ih =>
    obtain ⟨hne, hrest⟩ := List.ne_and_not_mem_of_not_mem_cons hfs
    rw [List.foldlM_cons, List.foldlM_cons, setByKey_setText hne.symm]
    cases setByKey g c p with
    | error e => rfl
    | ok d => exact ih hrest d

theorem ofTable_insert_text (hf : f ∈ Field.texts) (h : ofTable g = .ok c) (v : Value) :
    ofTable (Value.insert f.key v g) = (under f.key v.toText).map fun u => f.setText u c := by
  obtain ⟨before, after, hsplit⟩ := List.append_of_mem f.mem_byKey
  have hnodup : Field.byKey.Nodup := by decide
  rw [hsplit] at hnodup
  have hbefore : f ∉ before := fun hmem =>
    List.disjoint_of_nodup_append hnodup hmem List.mem_cons_self
  have hafter : f ∉ after := (List.nodup_cons.1 hnodup.of_append_right).1
  unfold ofTable at h ⊢
  rw [hsplit, List.foldlM_append] at h ⊢
  obtain ⟨first, hfirst, h⟩ := exists_of_bind_ok h
  rw [List.foldlM_cons] at h
  obtain ⟨second, hsecond, hlast⟩ := exists_of_bind_ok h
  rw [foldlM_insert_ne hbefore, hfirst]
  show (f :: after).foldlM (setByKey (Value.insert f.key v g)) first = _
  rw [List.foldlM_cons, setByKey_insert_text hf]
  cases under f.key v.toText with
  | error e => rfl
  | ok u =>
    show after.foldlM (setByKey (Value.insert f.key v g)) (f.setText u first) = _
    rw [foldlM_insert_ne hafter, ← setText_of_setByKey hf hsecond, foldlM_setText hafter, hlast]
    rfl

end Configuration

namespace Settings

variable {a : List (String × Value)} {s : Settings} {file : Option String} {x : String × String}
  {before after xs : List (String × String)}

theorem toText_merge (v w : Value) : (v.merge w).toText = w.toText := by
  unfold Value.merge
  split <;> rfl

theorem exists_mergeEntries (key : String) (w : Value) :
    ∃ v, Value.mergeEntries g [(key, w)] = Value.insert key v g ∧ v.toText = w.toText := by
  unfold Value.mergeEntries
  split
  · rename_i old _
    exact ⟨old.merge w, by rw [Value.mergeEntries], toText_merge old w⟩
  · exact ⟨w, by rw [Value.mergeEntries], rfl⟩

namespace Environment

def lay (v : Value) (x : String × String) : Value :=
  match keysOf? x.1 with
  | some keys => v.merge (Value.nest keys (valueOf x.2))
  | none => v

theorem foldl_lay_foreign (h : ∀ x ∈ xs, keysOf? x.1 = none) (v : Value) :
    xs.foldl lay v = v := by
  induction xs with
  | nil => rfl
  | cons x xs ih =>
    obtain ⟨hx, hxs⟩ := List.forall_mem_cons.1 h
    rw [List.foldl_cons, lay, hx]
    exact ih hxs

theorem toValue_field (h : ∀ x ∈ before ++ after, keysOf? x.1 = none) (f : Configuration.Field)
    (t : String) : toValue (before ++ (f.variableName, t) :: after) =
      .table [("generation", .table [(f.key, valueOf t)])] := by
  obtain ⟨hbefore, hafter⟩ := List.forall_mem_append.1 h
  show (before ++ (f.variableName, t) :: after).foldl lay (.table []) = _
  rw [List.foldl_append, foldl_lay_foreign hbefore, List.foldl_cons, foldl_lay_foreign hafter, lay,
    f.keysOf?_variableName]
  show Value.merge (.table []) (.table [("generation", .table [(f.key, valueOf t)])]) = _
  simp [Value.merge, Value.mergeEntries, Value.insert]

end Environment

def destinationOf (entries : List (String × Value)) : Decoded (Option Destination) :=
  match entries.lookup "destination" with
  | some v => (under "destination" (Destination.ofValue v)).map some
  | none => .ok none

def generationOf (entries : List (String × Value)) : Decoded Configuration :=
  match entries.lookup "generation" with
  | some v => under "generation" (Configuration.ofValue false v)
  | none => .ok Configuration.default

theorem ofEntries_eq (entries : List (String × Value)) : ofEntries entries =
    (destinationOf entries >>= fun dest => generationOf entries >>= fun c =>
      dest.elim (fail (.missingField "destination")) fun dest => .ok ⟨c, dest⟩) := by
  unfold ofEntries destinationOf generationOf
  rcases entries.lookup "destination" with _ | v <;>
    rcases entries.lookup "generation" with _ | w <;> dsimp only
  · rfl
  · cases under "generation" (Configuration.ofValue false w) <;> rfl
  · cases under "destination" (Destination.ofValue v) <;> rfl
  · cases under "destination" (Destination.ofValue v) <;>
      cases under "generation" (Configuration.ofValue false w) <;> rfl

theorem ofEntries_eq_map {dest : Destination} (h : destinationOf entries = .ok (some dest)) :
    ofEntries entries = (generationOf entries).map fun c => ⟨c, dest⟩ := by
  rw [ofEntries_eq, h]
  show (generationOf entries >>= _) = _
  cases generationOf entries <;> rfl

theorem ofEntries_eq_ok (h : ofEntries entries = .ok s) :
    destinationOf entries = .ok (some s.destination) ∧ generationOf entries = .ok s.generation := by
  rw [ofEntries_eq] at h
  obtain ⟨dest, hdest, h⟩ := exists_of_bind_ok h
  obtain ⟨c, hc, h⟩ := exists_of_bind_ok h
  cases dest with
  | none => cases h
  | some dest =>
    cases h
    exact ⟨hdest, hc⟩

theorem destinationOf_insert (v : Value) (entries : List (String × Value)) :
    destinationOf (Value.insert "generation" v entries) = destinationOf entries := by
  unfold destinationOf
  rw [Value.lookup_insert, if_neg (by decide)]

theorem generationOf_insert (g entries : List (String × Value)) :
    generationOf (Value.insert "generation" (.table g) entries) =
      under "generation" (Configuration.ofTable g) := by
  unfold generationOf
  rw [Value.lookup_insert, if_pos rfl]
  rfl

def Sectioned (file : Option String) : Prop :=
  ∀ v part, readFile file = .ok v → v.get? "generation" = some part → ∃ g, part = .table g

theorem exists_entries (h : load file [] = .ok s) :
    ∃ entries, readFile file = .ok (.table entries) ∧ ofEntries entries = .ok s := by
  obtain ⟨v, hfile, hload⟩ := exists_of_bind_ok h
  have hother (h : ofEntries [] = .ok s) : False := by
    cases (ofEntries_eq_ok h).1
  cases v with
  | table entries =>
    refine ⟨entries, hfile, ?_⟩
    change ofValue (Value.merge (.table entries) (.table [])) = .ok s at hload
    rw [Value.merge, Value.mergeEntries] at hload
    exact hload
  | _ => exact (hother hload).elim

theorem exists_mergeEntries_section (hsection : ∀ part,
      entries.lookup "generation" = some part → ∃ g, part = .table g)
    (hread : generationOf entries = .ok c) (key : String) (w : Value) :
    ∃ g v, Configuration.ofTable g = .ok c ∧ v.toText = w.toText ∧
      Value.mergeEntries entries [("generation", .table [(key, w)])] =
        Value.insert "generation" (.table (Value.insert key v g)) entries := by
  unfold generationOf at hread
  cases hlookup : entries.lookup "generation" with
  | none =>
    rw [hlookup] at hread
    refine ⟨[], w, hread, rfl, ?_⟩
    rw [Value.mergeEntries, hlookup]
    exact Value.mergeEntries.eq_1 _
  | some part =>
    obtain ⟨g, rfl⟩ := hsection part hlookup
    rw [hlookup] at hread
    obtain ⟨v, hmerge, hv⟩ := exists_mergeEntries (g := g) key w
    refine ⟨g, v, ok_of_mapError_ok hread, hv, ?_⟩
    rw [Value.mergeEntries, hlookup]
    show Value.mergeEntries (Value.insert "generation" (Value.merge _ _) entries) [] = _
    rw [Value.mergeEntries, Value.merge, hmerge]

theorem load_field (h : load file [] = .ok s) (hsection : Sectioned file)
    (hf : f ∈ Configuration.Field.texts)
    (hforeign : ∀ x ∈ before ++ after, Environment.keysOf? x.1 = none) (t : String) :
    load file (before ++ (f.variableName, t) :: after) =
      (under "generation" (under f.key (Environment.valueOf t).toText)).map
        fun u => { s with generation := f.setText u s.generation } := by
  obtain ⟨entries, hfile, hentries⟩ := exists_entries h
  obtain ⟨hdestination, hgeneration⟩ := ofEntries_eq_ok hentries
  obtain ⟨g, v, hg, hv, hmerge⟩ := exists_mergeEntries_section
    (fun part => hsection _ part hfile) hgeneration f.key (Environment.valueOf t)
  unfold load
  rw [hfile, Environment.toValue_field hforeign]
  show ofValue (Value.merge (.table entries)
    (.table [("generation", .table [(f.key, Environment.valueOf t)])])) = _
  rw [Value.merge, hmerge]
  show ofEntries _ = _
  rw [ofEntries_eq_map ((destinationOf_insert _ _).trans hdestination), generationOf_insert,
    Configuration.ofTable_insert_text hf hg, hv]
  cases (Environment.valueOf t).toText <;> rfl

theorem override_decided (h : load file [] = .ok s) (hsection : Sectioned file)
    (hf : f ∈ Configuration.Field.texts)
    (hforeign : ∀ x ∈ before ++ after, Environment.keysOf? x.1 = none) (htrim : Text.trim t = t) :
    (Environment.Typed t.toList → load file (before ++ (f.variableName, t) :: after) =
      .error ⟨.wrongType, ["generation", f.key]⟩) ∧
    (∀ content, Environment.Quoted t.toList content →
      load file (before ++ (f.variableName, t) :: after) =
        .ok { s with generation := f.setText (String.ofList content) s.generation }) ∧
    (¬ Environment.Typed t.toList → (∀ content, ¬ Environment.Quoted t.toList content) →
      load file (before ++ (f.variableName, t) :: after) =
        .ok { s with generation := f.setText t s.generation }) ∧
    ∀ u, ∃ q, q ≠ "" ∧ Text.trim q = q ∧ load file (before ++ (f.variableName, q) :: after) =
      .ok { s with generation := f.setText u s.generation } := by
  have hload := load_field h hsection hf hforeign
  have hchars := Text.trim_eq_self_iff.1 htrim
  refine ⟨fun htyped => ?_, fun content hquoted => ?_, fun htyped hquoted => ?_, fun u => ?_⟩
  · rw [hload, Environment.toText_of_typed hchars htyped]
    rfl
  · rw [hload, Environment.toText_of_quoted hchars hquoted]
    rfl
  · rw [hload, Environment.toText_of_other hchars htyped hquoted]
    rfl
  · have hquoted := Environment.quoted_quote u.toList
    have hends := Environment.trimChars_quote u.toList
    rw [← String.toList_ofList (l := Environment.quote u.toList)] at hquoted hends
    refine ⟨String.ofList (Environment.quote u.toList), ?_, Text.trim_eq_self_iff.2 hends, ?_⟩
    · intro hempty
      have hnil := congrArg String.toList hempty
      rw [String.toList_ofList] at hnil
      cases hnil
    · rw [hload, Environment.toText_of_quoted hends hquoted, String.ofList_toList]
      rfl

def sampleFile : String := "[destination]\nkind = \"memory\"\n"

theorem load_sample : load (some sampleFile) [] = .ok ⟨.default, .memory⟩ := by
  decide +kernel

theorem sectioned_sample : Sectioned (some sampleFile) := by
  intro v part hfile hpart
  have hread : (readFile (some sampleFile)).map (fun v => (v.get? "generation").isNone) =
      .ok true := by
    decide +kernel
  rw [hfile] at hread
  have hnone : (v.get? "generation").isNone = true := Except.ok.inj hread
  rw [hpart] at hnone
  cases hnone

theorem override_decided_sample :
    load (some sampleFile) [("HOME", "/root"),
        (Configuration.Field.storePassword.variableName, "12345"), ("LANG", "C")] =
      .error ⟨.wrongType, ["generation", "store_password"]⟩ ∧
    ∃ q, load (some sampleFile) [("HOME", "/root"),
        (Configuration.Field.storePassword.variableName, q), ("LANG", "C")] =
      .ok ⟨{ Configuration.default with storePassword := "12345" }, .memory⟩ := by
  have htyped : Environment.Typed "12345".toList :=
    .whole (Environment.exists_integer?_iff.1 ⟨12345, by decide +kernel⟩)
  have hforeign : ∀ x ∈ [("HOME", "/root")] ++ [("LANG", "C")],
      Environment.keysOf? x.1 = none := by
    decide +kernel
  obtain ⟨htype, -, -, hquoted⟩ := override_decided load_sample sectioned_sample
    (f := .storePassword) (by decide) hforeign (t := "12345") (by decide +kernel)
  obtain ⟨q, -, -, hq⟩ := hquoted "12345"
  exact ⟨htype htyped, q, hq⟩

theorem text_read_as_notation :
    load (some sampleFile) [] = .ok ⟨.default, .memory⟩ ∧ Sectioned (some sampleFile) ∧
      (Text.trim "12345" = "12345" ∧
        load (some sampleFile) [("KEYSTORE_GENERATION__STORE_PASSWORD", "12345")] =
          .error ⟨.wrongType, ["generation", "store_password"]⟩) ∧
      Text.trim "'q'" = "'q'" ∧ load (some sampleFile) [("KEYSTORE_GENERATION__ALIAS", "'q'")] =
        .ok ⟨{ Configuration.default with keyAlias := "q" }, .memory⟩ :=
  ⟨load_sample, sectioned_sample, ⟨by decide +kernel, by decide +kernel⟩, by decide +kernel,
    by decide +kernel⟩

end Settings

end Credential
