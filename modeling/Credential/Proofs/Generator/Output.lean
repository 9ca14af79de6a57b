import Credential.Proofs.Certificate.Forging
import Credential.Proofs.Configuration.Resolving
import Credential.Proofs.Destination.Effect
/-!
What a finished generation leaves at its destination is the key store that it reports.
-/

namespace Credential

open Disk Script

namespace Configuration

variable {c : Configuration} {r : Resolved}

theorem resolve_ok (h : c.resolve = .ok r) : c.resolvedStoreType = .ok r.storeType ∧
    r.keyAlias = c.resolvedAlias ∧ r.storePassword = c.storePassword ∧
      r.keyPassword = c.keyPassword ∧ r.signatureAlgorithm = c.signatureAlgorithm := by
  obtain ⟨type, ht, rfl⟩ := exists_of_resolve_ok h
  exact ⟨ht, rfl, rfl, rfl, rfl⟩

end Configuration

namespace Destination

variable {d : Destination} {m : Material} {draws : WriteDraws} {conduct : Conduct} {w : World}

def held (d : Destination) (s : Storage) : Option Bytes :=
  match d with
  | file target => s.tree.read? target.path
  | memory => s.memory

def Fresh (d : Destination) (c : Conduct) : Prop :=
  match d with
  | file target => target.Fresh c
  | memory => True

theorem write_held (hf : d.Fresh conduct) (h : ((d.write m draws).run conduct w).1 = .ok ()) :
    ∃ b, m.store.toBytes draws.container = .ok b ∧
      d.held ((d.write m draws).run conduct w).2.storage = some b := by
  cases d with
  | file target =>
    exact (FileTarget.write_written hf h).container
  | memory =>
    cases hb : m.store.toBytes draws.container with
    | error e =>
      simp only [write, hb, run_pure] at h
      cases h
    | ok b =>
      refine ⟨b, rfl, ?_⟩
      simp only [write, hb, run_bind]
      rw [run_ask]
      cases hc : conduct.fails w.count (.remember b) with
      | true => rw [run_pure, held, (answer_of_fails hc).2]; rfl
      | false => rw [run_pure, held, (answer_of_performs hc).2]; rfl

end Destination

namespace Generator

variable {c : Configuration} {d : Destination} {x : Circumstances} {r : Resolved}
  {key : Rsa.KeyPair} {certificate : Certificate} {m : Material} {conduct : Conduct} {w : World}
  {g : Generated}

theorem atStage_ok {α ε : Type} {stage : GenerationStage} {cause : ε → GenerationCause}
    {y : Except ε α} {a : α} (h : atStage stage cause y = .ok a) : y = .ok a :=
  ok_of_mapError_ok h

theorem certify_ok {name : String} {period : Period}
    (h : certify key name period x = .ok certificate) :
    certificate.fields.publicKey = key.publicDer ∧ ∃ algorithm,
      SignatureAlgorithm.parse name = .ok algorithm ∧
        certificate.verifySelfSigned algorithm = .ok () := by
  unfold certify at h
  obtain ⟨identifier, -, h⟩ := exists_of_bind_ok h
  obtain ⟨subject, -, h⟩ := exists_of_bind_ok h
  obtain ⟨stop, -, h⟩ := exists_of_bind_ok h
  obtain ⟨algorithm, _, _, _, hf⟩ := Certificate.forge_ok h
  exact ⟨Certificate.publicKey_forge h, algorithm, hf.parsed, hf.verified⟩

theorem assemble_ok (h : assemble r key certificate = .ok m) :
    ∃ b, key.toDer = .ok b ∧ m.certificate = certificate ∧ m.store.type = r.storeType ∧
      m.store.password = r.storePassword ∧
        m.store.entries = [⟨r.keyAlias, b, r.keyPassword, [certificate]⟩] := by
  unfold assemble at h
  obtain ⟨b, hb, h⟩ := exists_of_bind_ok h
  obtain ⟨store, hs, h⟩ := exists_of_bind_ok h
  obtain rfl := Except.ok.inj h
  have hset := atStage_ok hs
  have hfault : Container.KeyEntry.fault? ⟨r.keyAlias, b, r.keyPassword, [certificate]⟩ = none := by
    unfold KeyStore.set at hset
    split at hset
    · cases hset
    · assumption
  obtain ⟨s, hs', ht, hp, he⟩ := KeyStore.set_ok (s := .empty r.storeType r.storePassword) hfault
  rw [hs'] at hset
  obtain rfl := Except.ok.inj hset
  exact ⟨b, atStage_ok hb, rfl, ht, hp, he⟩

theorem exists_toBytes_assembled (h : assemble r key certificate = .ok m)
    (ha : (Text.Bmp.encode? r.keyAlias).isSome = true)
    (hp : (Text.Bmp.encode? r.storePassword).isSome = true)
    (hs : Container.size m.store.entries + 500 ≤ Der.maxLength) (draws : Container.Draws) :
    ∃ b, m.store.toBytes draws = .ok b := by
  obtain ⟨k, hk, -, -, hmpassword, hentries⟩ := assemble_ok h
  have hw : ∀ e ∈ m.store.entries, e.Writable := by
    intro e he
    rw [hentries] at he
    obtain rfl := List.mem_singleton.1 he
    obtain ⟨info, hi, -⟩ := Rsa.KeyPair.ofDer?_toDer hk
    refine ⟨by simp, ha, ?_⟩
    rw [hi]
    rfl
  refine KeyStore.exists_toBytes ?_ hw ?_ hs draws
  · rw [hentries]
    exact List.cons_ne_nil _ _
  · rw [hmpassword]
    exact hp

theorem prepare_ok (h : prepare c x = .ok (r, m)) : c.resolve = .ok r ∧
    ∃ key, certify key r.signatureAlgorithm r.period x = .ok m.certificate ∧
      assemble r key m.certificate = .ok m := by
  unfold prepare at h
  obtain ⟨resolved, hr, h⟩ := exists_of_bind_ok h
  obtain ⟨key, -, h⟩ := exists_of_bind_ok h
  obtain ⟨certificate, hc, h⟩ := exists_of_bind_ok h
  obtain ⟨material, hm, h⟩ := exists_of_bind_ok h
  obtain ⟨rfl, rfl⟩ := Prod.mk.inj (Except.ok.inj h)
  have hassemble := lift_ok_iff.1 hm
  obtain ⟨-, -, hcertificate, -⟩ := assemble_ok hassemble
  rw [hcertificate]
  exact ⟨atStage_ok (lift_ok_iff.1 hr), key, ok_of_mapError_ok hc, hassemble⟩

theorem generate_ok (h : ((generate c d x).run conduct w).1.2 = .ok g) :
    ∃ r m, prepare c x = .ok (r, m) ∧ ((d.write m x.draws).run conduct w).1 = .ok () ∧
      ((generate c d x).run conduct w).2 = ((d.write m x.draws).run conduct w).2 ∧
        g = ⟨r.keyAlias, d.toText, m.certificate⟩ := by
  cases hp : prepare c x with
  | error e =>
    rw [generate_of_error d conduct w hp] at h
    cases h
  | ok p =>
    obtain ⟨r, m⟩ := p
    cases hw : ((d.write m x.draws).run conduct w).1 with
    | error e =>
      rw [generate_of_unwritten hp hw] at h
      cases h
    | ok u =>
      rw [generate_of_written hp hw] at h ⊢
      obtain rfl := Except.ok.inj h
      exact ⟨r, m, rfl, hw, rfl, rfl⟩

theorem load_generated (c : Configuration) (d : Destination) (x : Circumstances)
    (conduct : Conduct) (w : World) (g : Generated) (hf : d.Fresh conduct)
    (h : ((generate c d x).run conduct w).1.2 = .ok g) :
    ∃ type b s e key algorithm, c.resolvedStoreType = .ok type ∧
      d.held ((generate c d x).run conduct w).2.storage = some b ∧
      KeyStore.load type b c.storePassword c.keyPassword = .ok s ∧ s.entries = [e] ∧
      e.name = g.keyAlias ∧ g.keyAlias = c.resolvedAlias ∧ e.chain = [g.certificate] ∧
      Rsa.KeyPair.ofDer e.privateKey = .ok key ∧
      key.publicDer = g.certificate.fields.publicKey ∧
      SignatureAlgorithm.parse c.signatureAlgorithm = .ok algorithm ∧
      g.certificate.verifySelfSigned algorithm = .ok () := by
  obtain ⟨r, m, hp, hw, hworld, rfl⟩ := generate_ok h
  obtain ⟨hr, key, hc, ha⟩ := prepare_ok hp
  obtain ⟨htype, hname, hstore, hkey, hsignature⟩ := Configuration.resolve_ok hr
  obtain ⟨hpublic, algorithm, hparse, hverified⟩ := certify_ok hc
  obtain ⟨k, hk, -, hmtype, hmpassword, hentries⟩ := assemble_ok ha
  obtain ⟨b, hb, hheld⟩ := Destination.write_held hf hw
  have hK : ∀ e ∈ m.store.entries, e.password = c.keyPassword := by
    intro e he
    rw [hentries] at he
    rw [List.mem_singleton.1 he, hkey]
  obtain ⟨s, hs, -, -, hall⟩ := KeyStore.exists_load hK hb
  rw [hmtype, hmpassword, hstore] at hs
  have hmem : ⟨r.keyAlias, k, r.keyPassword, [m.certificate]⟩ ∈ m.store.entries := by
    rw [hentries]
    exact List.mem_singleton_self _
  rw [hentries] at hall
  obtain ⟨e, es, hre, hres, hse⟩ := List.forall₂_cons_left_iff.1 hall
  obtain rfl := List.forall₂_nil_left_iff.1 hres
  have hchain : e.chain = [m.certificate] := by
    refine KeyStore.chain_reloaded hmem hre ?_
    intro f hfm hn
    rw [hentries] at hfm
    rw [List.mem_singleton.1 hfm] at hn
    exact absurd rfl hn
  have hown : e.privateKey = k := hre.ownKey key hk
  refine ⟨r.storeType, b, s, e, key, algorithm, htype, ?_, hs, hse, hre.name, hname, hchain, ?_,
    hpublic.symm, ?_, hverified⟩
  · rw [hworld]
    exact hheld
  · rw [hown]
    exact Rsa.KeyPair.ofDer_toDer hk
  · rw [← hsignature]
    exact hparse

def sampleNumbers : Rsa.PrivateNumbers where
  modulus :=
    0xd7109fcbc000ec442b054c45297cc75df38c6f4d0b5f12356dcd07fb60218629219c3bfdd460a9776222f4fdf7da04ab4e95df8e3e7bf801788e56bc194bbc91
  publicExponent := 65537
  privateExponent :=
    0x74c8ee3d32324e1a6652262c986ecdc452f0bbafd6b0f5ae55c5b4c3e85bcc01a2b0cb8cd034232654caeb19c0b95cd98ae805bd4dd9cea2455b45f46c162001
  prime1 := 0xf774eb5248db40af72158370d269a9a5ae658f33fe3b890b93f448b3a5aa3c81
  prime2 := 0xde7d6b377936d536243d35702c1eea1f265974a7cc966f46c6aa7d550101b811

def sampleKey : Rsa.KeyPair := ⟨sampleNumbers, by decide⟩

def sampleConfiguration : Configuration where
  keyAlias := ""
  storeType := ""
  storePassword := "store"
  keyPassword := "key"
  keySize := 512
  signatureAlgorithm := "SHA256withRSA"
  period := ⟨86400⟩
  isForced := false

def sampleCircumstances : Circumstances where
  clock := ⟨1700000000, 0, 0⟩
  host := "host"
  keyPair _ := some sampleKey
  draws := FileTarget.sampleDraws

def sampleConduct : Conduct := { FileTarget.sampleConduct with fails := fun _ _ => false }

def sampleDestination : Destination := .file FileTarget.sampleTarget

theorem sample_prepare : ∃ r m b, prepare sampleConfiguration sampleCircumstances = .ok (r, m) ∧
    m.store.toBytes sampleCircumstances.draws.container = .ok b := by
  have hsize : ((prepare sampleConfiguration sampleCircumstances).toOption.map fun p =>
      decide (Container.size p.2.store.entries + 500 ≤ Der.maxLength)) = some true := by
    decide +kernel
  cases hp : prepare sampleConfiguration sampleCircumstances with
  | error e =>
    rw [hp] at hsize
    cases hsize
  | ok p =>
    obtain ⟨r, m⟩ := p
    rw [hp] at hsize
    obtain ⟨hr, key, -, ha⟩ := prepare_ok hp
    obtain ⟨-, hname, hstore, -⟩ := Configuration.resolve_ok hr
    obtain ⟨b, hb⟩ := exists_toBytes_assembled ha (by rw [hname]; decide)
      (by rw [hstore]; decide) (of_decide_eq_true (Option.some.inj hsize))
      sampleCircumstances.draws.container
    exact ⟨r, m, b, rfl, hb⟩

theorem sample_write {m : Material} {draws : WriteDraws} {b : Bytes}
    (h : m.store.toBytes draws.container = .ok b) :
    ((sampleDestination.write m draws).run sampleConduct FileTarget.sampleWorld).1 = .ok () := by
  have hm : (FileTarget.makeDirectories FileTarget.sampleTarget.path.directory.ancestors).run
      sampleConduct FileTarget.sampleWorld = (true, ⟨FileTarget.sampleWorld.storage, 2,
        [FileTarget.sampleWorld.storage, FileTarget.sampleWorld.storage]⟩) := by
    decide
  rw [sampleDestination, Destination.write,
    FileTarget.write_of_made hm (FileTarget.sample_contents h)]
  cbv

theorem sample_generate : ∃ g, ((generate sampleConfiguration sampleDestination
    sampleCircumstances).run sampleConduct FileTarget.sampleWorld).1.2 = .ok g := by
  obtain ⟨r, m, b, hp, hb⟩ := sample_prepare
  refine ⟨⟨r.keyAlias, sampleDestination.toText, m.certificate⟩, ?_⟩
  simp only [generate, hp, run_bind, sample_write hb, run_pure]

theorem load_generated_sample : ∃ g, sampleDestination.Fresh sampleConduct ∧
    ((generate sampleConfiguration sampleDestination sampleCircumstances).run sampleConduct
      FileTarget.sampleWorld).1.2 = .ok g ∧
    ∃ type b s e key algorithm, sampleConfiguration.resolvedStoreType = .ok type ∧
      sampleDestination.held ((generate sampleConfiguration sampleDestination
        sampleCircumstances).run sampleConduct FileTarget.sampleWorld).2.storage = some b ∧
      KeyStore.load type b sampleConfiguration.storePassword sampleConfiguration.keyPassword =
        .ok s ∧ s.entries = [e] ∧
      e.name = g.keyAlias ∧ g.keyAlias = sampleConfiguration.resolvedAlias ∧
      e.chain = [g.certificate] ∧ Rsa.KeyPair.ofDer e.privateKey = .ok key ∧
      key.publicDer = g.certificate.fields.publicKey ∧
      SignatureAlgorithm.parse sampleConfiguration.signatureAlgorithm = .ok algorithm ∧
      g.certificate.verifySelfSigned algorithm = .ok () := by
  obtain ⟨g, hg⟩ := sample_generate
  exact ⟨g, FileTarget.sample_fresh, hg, load_generated sampleConfiguration sampleDestination
    sampleCircumstances sampleConduct FileTarget.sampleWorld g FileTarget.sample_fresh hg⟩

end Generator

end Credential
