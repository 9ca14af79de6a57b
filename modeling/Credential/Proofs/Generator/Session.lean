import Credential.Proofs.Generator.Output
/-!
Generators that take turns on one memory and one log. What the memory holds, whether a call is
passed over and what the log says follow from the results of the calls before.
-/

namespace Credential

open Disk Script

namespace Generator

def content? (c : Configuration) (x : Circumstances) : Option Bytes :=
  match prepare c x with
  | .error _ => none
  | .ok (_, m) => (m.store.toBytes x.draws.container).toOption

theorem content?_of_prepare {c : Configuration} {x : Circumstances} {r : Resolved} {m : Material}
    {b : Bytes} (hp : prepare c x = .ok (r, m)) (hb : m.store.toBytes x.draws.container = .ok b) :
    content? c x = some b := by
  simp only [content?, hp, hb]
  rfl

structure Call where
  isGated : Bool
  configuration : Configuration
  circumstances : Circumstances

structure Shared where
  world : World
  log : List Event

structure Turn where
  call : Call
  before : Shared
  result : Except (Failure GenerationError) Outcome
  after : Shared

namespace Call

def ungated (k : Call) : Script (Report Outcome) := do
  let (events, result) ← generate k.configuration .memory k.circumstances
  return (events, result.map .stored)

def script (k : Call) : Script (Report Outcome) :=
  if k.isGated then generateIfNeeded k.configuration .memory k.circumstances else k.ungated

def take (conduct : Conduct) (k : Call) (s : Shared) : Turn :=
  let ((events, result), world) := k.script.run conduct s.world
  ⟨k, s, result, ⟨world, s.log ++ events⟩⟩

end Call

namespace Shared

def fresh (tree : Tree) : Shared := ⟨.start ⟨tree, none⟩, []⟩

def memory (s : Shared) : Option Bytes := s.world.storage.memory

end Shared

namespace Turn

def stored? (t : Turn) : Option Generated :=
  match t.result with
  | .ok (.stored g) => some g
  | _ => none

def content? (t : Turn) : Option Bytes :=
  t.stored?.bind fun _ => Generator.content? t.call.configuration t.call.circumstances

def events (t : Turn) : List Event :=
  match t.result with
  | .ok .skipped => []
  | .error _ => defaults
  | .ok (.stored g) => defaults ++ [.created g.destination g.keyAlias]
where
  defaults : List Event :=
    (if Text.isBlank t.call.configuration.keyAlias then
      [.defaultedAlias Configuration.defaultAlias] else []) ++
    (if Text.isBlank t.call.configuration.storeType then
      [.defaultedStoreType StoreType.pkcs12.name] else [])

def last? (turns : List Turn) : Option Bytes := (turns.filterMap content?).getLast?

end Turn

-- Calls go on after one that overflows, as when its caller catches that.
def play (conduct : Conduct) : List Call → Shared → List Turn
  | [], _ => []
  | k :: rest, s => k.take conduct s :: play conduct rest (k.take conduct s).after

variable {conduct : Conduct} {s : Shared} {k : Call} {t : Turn}

inductive Effect (s : Shared) : Turn → Prop
  | skipped {k w} (hg : k.isGated = true) (hf : k.configuration.isForced = false)
      (hm : s.memory.isSome = true) (hw : w.storage.memory = s.memory) :
      Effect s ⟨k, s, .ok .skipped, ⟨w, s.log⟩⟩
  | failed {k w e} (hn : k.isGated = true → k.configuration.isForced = false → s.memory = none)
      (hx : content? k.configuration k.circumstances = none)
      (hw : w.storage.memory = s.memory) :
      Effect s ⟨k, s, .error e, ⟨w, s.log ++ k.configuration.defaulted⟩⟩
  | stored {k w r m b} (hn : k.isGated = true → k.configuration.isForced = false → s.memory = none)
      (hp : prepare k.configuration k.circumstances = .ok (r, m))
      (hb : m.store.toBytes k.circumstances.draws.container = .ok b)
      (hw : w.storage.memory = some b) :
      Effect s ⟨k, s, .ok (.stored ⟨r.keyAlias, "memory", m.certificate⟩),
        ⟨w, s.log ++ (k.configuration.defaulted ++ [.created "memory" r.keyAlias])⟩⟩

theorem isTaken_run (conduct : Conduct) (w : World) :
    (Destination.memory.isTaken.run conduct w).1 = w.storage.memory.isSome ∧
      (Destination.memory.isTaken.run conduct w).2.storage = w.storage := by
  unfold Destination.isTaken
  rw [run_ask]
  cases hc : conduct.fails w.count .consult with
  | false => exact answer_of_performs hc
  | true => exact answer_of_fails hc

theorem remember_run (conduct : Conduct) (w : World) (b : Bytes) :
    (answer conduct w (.remember b)).2.storage.memory = some b := by
  cases hc : conduct.fails w.count (.remember b) with
  | false => rw [(answer_of_performs hc).2]; rfl
  | true => rw [(answer_of_fails hc).2]; rfl

theorem generate_memory (conduct : Conduct) (c : Configuration) (x : Circumstances) (w : World) :
    (content? c x = none ∧
      ∃ e, (generate c .memory x).run conduct w = ((c.defaulted, .error e), w)) ∨
    ∃ r m b w', prepare c x = .ok (r, m) ∧ m.store.toBytes x.draws.container = .ok b ∧
      w'.storage.memory = some b ∧
      (generate c .memory x).run conduct w =
        ((c.defaulted ++ [.created "memory" r.keyAlias],
          .ok ⟨r.keyAlias, "memory", m.certificate⟩), w') := by
  cases hp : prepare c x with
  | error e =>
    left
    refine ⟨?_, e, ?_⟩
    · rw [content?, hp]
    · simp only [generate, hp, run_pure]
  | ok p =>
    obtain ⟨r, m⟩ := p
    cases hb : m.store.toBytes x.draws.container with
    | error e =>
      left
      refine ⟨?_, .raised ⟨.storing, .write (.store e)⟩, ?_⟩
      · simp only [content?, hp, hb]
        rfl
      · simp only [generate, hp, Destination.write, hb, run_bind, run_pure]
    | ok b =>
      right
      refine ⟨r, m, b, _, rfl, hb, remember_run conduct w b, ?_⟩
      simp only [generate, hp, Destination.write, hb, run_bind, run_pure]
      rfl

theorem ungated_effect {w : World} (hrun : k.script.run conduct s.world = k.ungated.run conduct w)
    (hw : w.storage.memory = s.memory)
    (hn : k.isGated = true → k.configuration.isForced = false → s.memory = none) :
    Effect s (k.take conduct s) := by
  unfold Call.take
  rw [hrun, Call.ungated, run_bind]
  rcases generate_memory conduct k.configuration k.circumstances w with
    ⟨hx, e, hg⟩ | ⟨r, m, b, w', hp, hb, hm, hg⟩
  · rw [hg]
    exact .failed hn hx hw
  · rw [hg]
    exact .stored hn hp hb hm

theorem take_effect (conduct : Conduct) (k : Call) (s : Shared) : Effect s (k.take conduct s) := by
  obtain ⟨hreply, hstorage⟩ := isTaken_run conduct s.world
  have hmemory : (Destination.memory.isTaken.run conduct s.world).2.storage.memory = s.memory := by
    rw [hstorage, Shared.memory]
  cases hg : k.isGated with
  | false =>
    refine ungated_effect (w := s.world) ?_ rfl ?_
    · simp [Call.script, hg]
    · intro h
      rw [hg] at h
      cases h
  | true =>
    have hgated : k.script.run conduct s.world =
        (if k.configuration.isForced || !s.memory.isSome then k.ungated
          else pure ([], .ok .skipped)).run conduct
          (Destination.memory.isTaken.run conduct s.world).2 := by
      simp only [Call.script, hg, if_true, generateIfNeeded, isNeeded, run_bind, run_pure, hreply]
      rfl
    cases hneed : k.configuration.isForced || !s.memory.isSome with
    | false =>
      obtain ⟨hf, hm⟩ := Bool.or_eq_false_iff.1 hneed
      rw [hneed] at hgated
      have h := Effect.skipped (s := s) hg hf (by simpa using hm) hmemory
      unfold Call.take
      rw [hgated]
      simpa using h
    | true =>
      rw [hneed] at hgated
      refine ungated_effect hgated hmemory ?_
      intro _ hf
      rw [hf] at hneed
      simpa using hneed

namespace Effect

theorem content? (h : Effect s t) : (t.stored? = none ∧ t.content? = none) ∨
    ∃ r m b, prepare t.call.configuration t.call.circumstances = .ok (r, m) ∧
      m.store.toBytes t.call.circumstances.draws.container = .ok b ∧
      t.stored? = some ⟨r.keyAlias, "memory", m.certificate⟩ ∧ t.content? = some b := by
  cases h with
  | skipped => exact .inl ⟨rfl, rfl⟩
  | failed => exact .inl ⟨rfl, rfl⟩
  | @stored k w r m b _ hp hb _ =>
    exact .inr ⟨r, m, b, hp, hb, rfl, content?_of_prepare hp hb⟩

theorem memory (h : Effect s t) : t.after.memory = t.content?.or s.memory := by
  rcases h.content? with ⟨-, hc⟩ | ⟨r, m, b, hp, hb, -, hc⟩
  · rw [hc, Option.none_or]
    cases h with
    | skipped _ _ _ hw => exact hw
    | failed _ _ hw => exact hw
    | stored hn hp hb hw =>
      simp only [Turn.content?, Turn.stored?, Option.bind_some, Generator.content?, hp, hb] at hc
      cases hc
  · rw [hc, Option.some_or]
    cases h with
    | skipped => cases hc
    | failed => cases hc
    | stored hn hp' hb' hw =>
      obtain ⟨rfl, rfl⟩ := Prod.mk.inj (Except.ok.inj (hp'.symm.trans hp))
      obtain rfl := Except.ok.inj (hb'.symm.trans hb)
      exact hw

theorem isSome_stored? (h : Effect s t) (hm : s.memory = none)
    (hx : (Generator.content? t.call.configuration t.call.circumstances).isSome = true) :
    t.stored?.isSome = true := by
  cases h with
  | skipped _ _ hm' =>
    rw [hm] at hm'
    cases hm'
  | failed _ hx' =>
    rw [hx'] at hx
    cases hx
  | stored => rfl

theorem log (h : Effect s t) : t.after.log = s.log ++ t.events := by
  cases h with
  | skipped => exact (List.append_nil _).symm
  | failed => rfl
  | stored => rfl

theorem before (h : Effect s t) : t.before = s := by
  cases h <;> rfl

theorem skipped_iff (h : Effect s t) : t.result = .ok .skipped ↔ t.call.isGated = true ∧
    t.call.configuration.isForced = false ∧ s.memory.isSome = true := by
  have hclash (hn : t.call.isGated = true → t.call.configuration.isForced = false →
      s.memory = none) : ¬(t.call.isGated = true ∧ t.call.configuration.isForced = false ∧
        s.memory.isSome = true) := by
    rintro ⟨hg, hf, hm⟩
    rw [hn hg hf] at hm
    cases hm
  cases h with
  | skipped hg hf hm => exact iff_of_true rfl ⟨hg, hf, hm⟩
  | failed hn => exact iff_of_false (by rintro ⟨⟩) (hclash hn)
  | stored hn => exact iff_of_false (by rintro ⟨⟩) (hclash hn)

end Effect

namespace Turn

theorem last?_cons (t : Turn) (turns : List Turn) :
    last? (t :: turns) = (last? turns).or t.content? := by
  unfold last?
  cases hc : t.content? with
  | none => rw [List.filterMap_cons_none hc, Option.or_none]
  | some b =>
    rw [List.filterMap_cons_some hc, List.getLast?_cons]
    cases (turns.filterMap Turn.content?).getLast? <;> rfl

theorem last?_concat (turns : List Turn) (t : Turn) :
    last? (turns ++ [t]) = t.content?.or (last? turns) := by
  induction turns with
  | nil => rw [List.nil_append, last?_cons, show last? [] = none from rfl, Option.none_or,
      Option.or_none]
  | cons u turns ih => rw [List.cons_append, last?_cons, ih, last?_cons, Option.or_assoc]

theorem isSome_last?_iff (turns : List Turn) :
    (last? turns).isSome = true ↔ ∃ t ∈ turns, t.content?.isSome = true := by
  induction turns with
  | nil => simp [last?]
  | cons t turns ih => rw [last?_cons, Option.isSome_or, Bool.or_eq_true, ih, List.exists_mem_cons_iff,
      or_comm]

end Turn

theorem play_calls (conduct : Conduct) (calls : List Call) (s : Shared) :
    (play conduct calls s).map Turn.call = calls := by
  induction calls generalizing s with
  | nil => rfl
  | cons k rest ih => exact congrArg (k :: ·) (ih _)

theorem play_split {calls : List Call} {earlier later : List Turn}
    (h : play conduct calls s = earlier ++ t :: later) : ∃ u, Effect u t ∧
      u.memory = (Turn.last? earlier).or s.memory ∧ u.log = s.log ++ earlier.flatMap Turn.events ∧
      ∀ e ∈ earlier, ∃ v, Effect v e := by
  induction earlier generalizing calls s with
  | nil =>
    cases calls with
    | nil => cases h
    | cons k rest =>
      obtain ⟨rfl, -⟩ := List.cons.inj h
      exact ⟨s, take_effect conduct k s, rfl, (List.append_nil _).symm, by rintro _ ⟨⟩⟩
  | cons e earlier ih =>
    cases calls with
    | nil => cases h
    | cons k rest =>
      obtain ⟨rfl, hrest⟩ := List.cons.inj h
      have he := take_effect conduct k s
      obtain ⟨u, hu, hmemory, hlog, hall⟩ := ih hrest
      refine ⟨u, hu, ?_, ?_, ?_⟩
      · rw [hmemory, he.memory, Turn.last?_cons, Option.or_assoc]
      · rw [hlog, he.log, List.flatMap_cons, List.append_assoc]
      · exact List.forall_mem_cons.2 ⟨⟨s, he⟩, hall⟩

theorem Effect.isSome_content? (h : Effect s t) :
    t.content?.isSome = true ↔ t.stored?.isSome = true := by
  rcases h.content? with ⟨hs, hc⟩ | ⟨r, m, b, -, -, hs, hc⟩
  · rw [hs, hc, Option.isSome_none, Option.isSome_none]
  · rw [hs, hc, Option.isSome_some, Option.isSome_some]

theorem isSome_last?_of_effects {turns : List Turn} (h : ∀ e ∈ turns, ∃ v, Effect v e) :
    (Turn.last? turns).isSome = true ↔ ∃ e ∈ turns, e.stored?.isSome = true := by
  rw [Turn.isSome_last?_iff]
  constructor
  · rintro ⟨e, he, hc⟩
    obtain ⟨v, hv⟩ := h e he
    exact ⟨e, he, hv.isSome_content?.1 hc⟩
  · rintro ⟨e, he, hs⟩
    obtain ⟨v, hv⟩ := h e he
    exact ⟨e, he, hv.isSome_content?.2 hs⟩

structure Turn.Follows (earlier : List Turn) (t : Turn) : Prop where
  last : t.after.memory = Turn.last? (earlier ++ [t])
  empty_iff : t.after.memory = none ↔ ∀ e ∈ earlier ++ [t], e.stored? = none
  kept : t.stored? = none → t.after.memory = t.before.memory
  stored : ∀ g, t.stored? = some g → ∃ r m b,
    prepare t.call.configuration t.call.circumstances = .ok (r, m) ∧
      m.store.toBytes t.call.circumstances.draws.container = .ok b ∧
        t.after.memory = some b ∧ g = ⟨r.keyAlias, "memory", m.certificate⟩
  skipped_iff : t.result = .ok .skipped ↔ t.call.isGated = true ∧
    t.call.configuration.isForced = false ∧ ∃ e ∈ earlier, e.stored?.isSome = true
  log : t.after.log = (earlier ++ [t]).flatMap Turn.events

theorem Effect.follows {earlier : List Turn} {u : Shared} (h : Effect u t)
    (hmemory : u.memory = Turn.last? earlier) (hlog : u.log = earlier.flatMap Turn.events)
    (hall : ∀ e ∈ earlier, ∃ v, Effect v e) : t.Follows earlier := by
  have hlast : t.after.memory = Turn.last? (earlier ++ [t]) := by
    rw [h.memory, hmemory, Turn.last?_concat]
  have hall' : ∀ e ∈ earlier ++ [t], ∃ v, Effect v e := by
    intro e he
    rcases List.mem_append.1 he with he | he
    · exact hall e he
    · obtain rfl := List.mem_singleton.1 he
      exact ⟨u, h⟩
  refine ⟨hlast, ?_, ?_, ?_, ?_, ?_⟩
  · rw [hlast, ← not_iff_not, ← ne_eq, ← Option.isSome_iff_ne_none,
      isSome_last?_of_effects hall']
    simp only [not_forall, exists_prop, ← ne_eq, ← Option.isSome_iff_ne_none]
  · intro hs
    rcases h.content? with ⟨-, hc⟩ | ⟨_, _, _, -, -, hs', -⟩
    · rw [h.memory, hc, Option.none_or, h.before]
    · rw [hs] at hs'
      cases hs'
  · intro g hg
    rcases h.content? with ⟨hs, -⟩ | ⟨r, m, b, hp, hb, hs, hc⟩
    · rw [hs] at hg
      cases hg
    · refine ⟨r, m, b, hp, hb, ?_, Option.some.inj (hg.symm.trans hs)⟩
      rw [h.memory, hc, Option.some_or]
  · rw [h.skipped_iff, hmemory, isSome_last?_of_effects hall]
  · rw [h.log, hlog, List.flatMap_append, List.flatMap_singleton]

theorem play_follows (conduct : Conduct) (tree : Tree) (calls : List Call) :
    (play conduct calls (.fresh tree)).map Turn.call = calls ∧
      ∀ earlier t later, play conduct calls (.fresh tree) = earlier ++ t :: later →
        t.Follows earlier := by
  refine ⟨play_calls conduct calls _, ?_⟩
  intro earlier t later h
  obtain ⟨u, hu, hmemory, hlog, hall⟩ := play_split h
  refine hu.follows ?_ hlog hall
  rw [hmemory]
  exact Option.or_none

def sampleCalls : List Call :=
  [⟨true, sampleConfiguration, sampleCircumstances⟩, ⟨true, sampleConfiguration, sampleCircumstances⟩]

theorem play_follows_sample : ∃ first second,
    play sampleConduct sampleCalls (.fresh .empty) = [first] ++ second :: [] ∧
      first.stored?.isSome = true ∧ second.result = .ok .skipped ∧ second.Follows [first] := by
  obtain ⟨hcalls, hfollows⟩ := play_follows sampleConduct .empty sampleCalls
  obtain ⟨first, rest, hplay, hone, hrest⟩ := List.map_eq_cons_iff.1 hcalls
  obtain ⟨second, last, rfl, htwo, hlast⟩ := List.map_eq_cons_iff.1 hrest
  obtain rfl := List.map_eq_nil_iff.1 hlast
  have hsplit : play sampleConduct sampleCalls (.fresh .empty) = [] ++ first :: [second] := hplay
  obtain ⟨u, heffect, hmemory, -⟩ := play_split hsplit
  obtain ⟨r, m, b, hp, hb⟩ := sample_prepare
  have hx : content? sampleConfiguration sampleCircumstances = some b :=
    content?_of_prepare hp hb
  have hfirst : first.stored?.isSome = true := by
    refine heffect.isSome_stored? hmemory ?_
    rw [hone]
    exact Option.isSome_of_eq_some hx
  have hsecond := hfollows [first] second [] hplay
  refine ⟨first, second, hplay, hfirst, hsecond.skipped_iff.2 ?_, hsecond⟩
  rw [htwo]
  exact ⟨rfl, rfl, first, List.mem_singleton_self _, hfirst⟩

end Generator

end Credential
