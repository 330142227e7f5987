import Caret.Expansion.Session
import Caret.Settings
import Mathlib.Data.List.Basic

namespace Caret.Expansion

variable {σ α : Type}

inductive Call (σ : Type) where
  | expand (abbreviation : String) (config : Config)
  | invalidate
  | elsewhere (change : σ → σ)

structure Reply (α : Type) where
  abbreviation : String
  request : Request α
  settings : Toml.Table
  answer : Except Error String
  cache : Cache α

structure Log (α : Type) where
  loaded : List Settings := []
  replies : List (Reply α) := []

structure Entry (σ α : Type) where
  call : Call σ
  log : Log α := {}
  answer : Option (Except Error String) := none

def Entry.isInvalidation (e : Entry σ α) : Bool := e.call matches .invalidate

def logged (source : StateM σ Settings) : StateT (Log α) (StateM σ) Toml.Table := do
  let settings ← source
  modify fun log => { log with loaded := log.loaded ++ [settings] }
  return settings.config

def EngineM.logged (engine : EngineM (StateM σ) α) : EngineM (StateT (Log α) (StateM σ)) α :=
  fun abbreviation request settings => do
    let (answer, cache) ← engine abbreviation request settings
    modify fun log =>
      { log with replies := log.replies ++ [⟨abbreviation, request, settings, answer, cache⟩] }
    return (answer, cache)

namespace Session

def record (engine : EngineM (StateM σ) α) (source : StateM σ Settings) (s : Session α) :
    Call σ → StateM σ (Entry σ α × Session α)
  | .expand abbreviation config => do
    let ((answer, s), log) ← (s.expandM engine.logged (logged source) abbreviation config).run {}
    return (⟨.expand abbreviation config, log, some answer⟩, s)
  | .invalidate => return ({ call := .invalidate }, s.invalidate)
  | .elsewhere change => do
    modify change
    return ({ call := .elsewhere change }, s)

def transcript (engine : EngineM (StateM σ) α) (source : StateM σ Settings) (s : Session α) :
    List (Call σ) → StateM σ (List (Entry σ α))
  | [] => return []
  | call :: calls => do
    let (entry, s) ← s.record engine source call
    return entry :: (← s.transcript engine source calls)

end Session

def Entry.Asks (e : Entry σ α) (settings : Toml.Table) (given left : Cache α) : Prop :=
  ∃ abbreviation config answer, e.call = .expand abbreviation config ∧
    e.log.replies =
      [⟨abbreviation, ⟨given, config.context, config.output⟩, settings, answer, left⟩] ∧
    e.answer = some answer

inductive Continued (settings : Toml.Table) : Cache α → List (Entry σ α) → Prop
  | nil {cache : Cache α} : Continued settings cache []
  | elsewhere {cache : Cache α} {change : σ → σ} {rest : List (Entry σ α)}
      (next : Continued settings cache rest) :
      Continued settings cache ({ call := .elsewhere change } :: rest)
  | expand {e : Entry σ α} {given left : Cache α} {rest : List (Entry σ α)}
      (loaded : e.log.loaded = []) (asks : e.Asks settings given left)
      (next : Continued settings left rest) : Continued settings given (e :: rest)

/-- What is between two invalidations: the first expansion loads the settings, once, and finds the
cache empty; the others continue from it. -/
inductive Stretch : List (Entry σ α) → Prop
  | nil : Stretch []
  | elsewhere {change : σ → σ} {rest : List (Entry σ α)} (next : Stretch rest) :
      Stretch ({ call := .elsewhere change } :: rest)
  | expand {e : Entry σ α} {settings : Settings} {left : Cache α} {rest : List (Entry σ α)}
      (loaded : e.log.loaded = [settings]) (asks : e.Asks settings.config {} left)
      (next : Continued settings.config left rest) : Stretch (e :: rest)

namespace Session

variable {engine : EngineM (StateM σ) α} {source : StateM σ Settings} {s : Session α}

theorem record_expand (engine : EngineM (StateM σ) α) (source : StateM σ Settings) (s : Session α)
    (abbreviation : String) (config : Config) (world : σ) :
    ∃ e settings left world',
      (s.record engine source (.expand abbreviation config)).run world =
        ((e, ⟨left, some settings⟩), world') ∧
      e.call = .expand abbreviation config ∧ e.Asks settings s.cache left ∧
      ((s.settings = some settings ∧ e.log.loaded = []) ∨
        s.settings = none ∧ ∃ all : Settings, all.config = settings ∧ e.log.loaded = [all]) := by
  obtain ⟨cache, settled⟩ := s
  let request : Request α := ⟨cache, config.context, config.output⟩
  cases settled with
  | some settings =>
    let reply := (engine abbreviation request settings).run world
    let log : Log α := ⟨[], [⟨abbreviation, request, settings, reply.1.1, reply.1.2⟩]⟩
    exact ⟨⟨.expand abbreviation config, log, some reply.1.1⟩, settings, reply.1.2, reply.2, rfl,
      rfl, ⟨abbreviation, config, reply.1.1, rfl, rfl, rfl⟩, .inl ⟨rfl, rfl⟩⟩
  | none =>
    let load := source.run world
    let reply := (engine abbreviation request load.1.config).run load.2
    let log : Log α :=
      ⟨[load.1], [⟨abbreviation, request, load.1.config, reply.1.1, reply.1.2⟩]⟩
    exact ⟨⟨.expand abbreviation config, log, some reply.1.1⟩, load.1.config, reply.1.2, reply.2,
      rfl, rfl, ⟨abbreviation, config, reply.1.1, rfl, rfl, rfl⟩, .inr ⟨rfl, load.1, rfl, rfl⟩⟩

theorem transcript_cons {call : Call σ} {e : Entry σ α} {s' : Session α} {world world' : σ}
    (h : (s.record engine source call).run world = ((e, s'), world')) (calls : List (Call σ)) :
    ((s.transcript engine source (call :: calls)).run world).1 =
      e :: ((s'.transcript engine source calls).run world').1 := by
  rw [transcript, StateT.run_bind, h]
  rfl

theorem transcript_calls (engine : EngineM (StateM σ) α) (source : StateM σ Settings)
    (s : Session α) (calls : List (Call σ)) (world : σ) :
    let entries := ((s.transcript engine source calls).run world).1
    entries.map (·.call) = calls ∧
      ∀ e ∈ entries, e.isInvalidation = true → e.log.loaded = [] ∧ e.log.replies = [] := by
  induction calls generalizing s world with
  | nil => exact ⟨rfl, fun e he => absurd he List.not_mem_nil⟩
  | cons call calls ih =>
    have hcons {e : Entry σ α} {s' : Session α} {world' : σ}
        (h : (s.record engine source call).run world = ((e, s'), world')) (hcall : e.call = call)
        (hlog : e.isInvalidation = true → e.log.loaded = [] ∧ e.log.replies = []) :
        let entries := ((s.transcript engine source (call :: calls)).run world).1
        entries.map (·.call) = call :: calls ∧
          ∀ e ∈ entries, e.isInvalidation = true → e.log.loaded = [] ∧ e.log.replies = [] := by
      obtain ⟨hcalls, hlogs⟩ := ih s' world'
      simp only [transcript_cons h, List.map_cons, hcall, hcalls, List.forall_mem_cons]
      exact ⟨trivial, hlog, hlogs⟩
    cases call with
    | expand abbreviation config =>
      obtain ⟨e, settings, left, world', hrecord, hcall, -, -⟩ :=
        record_expand engine source s abbreviation config world
      exact hcons hrecord hcall (by simp [Entry.isInvalidation, hcall])
    | invalidate => exact hcons (e := { call := .invalidate }) rfl rfl fun _ => ⟨rfl, rfl⟩
    | elsewhere change =>
      exact hcons (e := { call := .elsewhere change }) rfl rfl fun _ => ⟨rfl, rfl⟩

def Continues (s : Session α) (entries : List (Entry σ α)) : Prop :=
  match s.settings with
  | some settings => Continued settings s.cache entries
  | none => s.cache = {} → Stretch entries

theorem Continues.nil (s : Session α) : s.Continues ([] : List (Entry σ α)) := by
  unfold Continues
  cases s.settings with
  | some settings => exact Continued.nil
  | none => exact fun _ => Stretch.nil

theorem Continues.elsewhere {rest : List (Entry σ α)} (h : s.Continues rest) (change : σ → σ) :
    s.Continues ({ call := .elsewhere change } :: rest) := by
  unfold Continues at h ⊢
  cases hs : s.settings with
  | some settings =>
    rw [hs] at h
    exact Continued.elsewhere h
  | none =>
    rw [hs] at h
    exact fun hcache => Stretch.elsewhere (h hcache)

theorem splitOnP_transcript (engine : EngineM (StateM σ) α) (source : StateM σ Settings)
    (s : Session α) (calls : List (Call σ)) (world : σ) :
    ∃ first rest, ((s.transcript engine source calls).run world).1.splitOnP (·.isInvalidation) =
      first :: rest ∧ s.Continues first ∧ ∀ stretch ∈ rest, Stretch stretch := by
  -- the first stretch is one the session is in already, the others begin with an invalidation
  induction calls generalizing s world with
  | nil => exact ⟨[], [], rfl, .nil s, by simp⟩
  | cons call calls ih =>
    cases call with
    | expand abbreviation config =>
      obtain ⟨e, settings, left, world', hrecord, hcall, hasks, hsettings⟩ :=
        record_expand engine source s abbreviation config world
      obtain ⟨first, rest, hsplit, hfirst, hrest⟩ := ih ⟨left, some settings⟩ world'
      have hkind : e.isInvalidation = false := by simp [Entry.isInvalidation, hcall]
      refine ⟨e :: first, rest, ?_, ?_, hrest⟩
      · rw [transcript_cons hrecord, List.splitOnP_cons_eq_if_modifyHead, hsplit, hkind]
        rfl
      · unfold Continues
        rcases hsettings with ⟨hs, hloaded⟩ | ⟨hs, all, rfl, hloaded⟩
        · rw [hs]
          exact Continued.expand hloaded hasks hfirst
        · rw [hs]
          intro hcache
          rw [hcache] at hasks
          exact Stretch.expand hloaded hasks hfirst
    | invalidate =>
      obtain ⟨first, rest, hsplit, hfirst, hrest⟩ := ih s.invalidate world
      have hrecord : (s.record engine source .invalidate).run world =
          (({ call := .invalidate }, s.invalidate), world) := rfl
      refine ⟨[], first :: rest, ?_, .nil s, List.forall_mem_cons.mpr ⟨hfirst rfl, hrest⟩⟩
      rw [transcript_cons hrecord, List.splitOnP_cons_eq_if_modifyHead, hsplit]
      rfl
    | elsewhere change =>
      obtain ⟨first, rest, hsplit, hfirst, hrest⟩ := ih s (change world)
      have hrecord : (s.record engine source (.elsewhere change)).run world =
          (({ call := .elsewhere change }, s), change world) := rfl
      refine ⟨_, rest, ?_, hfirst.elsewhere change, hrest⟩
      rw [transcript_cons hrecord, List.splitOnP_cons_eq_if_modifyHead, hsplit]
      rfl

/-- Whatever is asked of a new session, and however the engine answers and the settings change: the
calls between two invalidations load the settings once, for the first expansion if there is one,
and the cache goes from one expansion to the next. -/
theorem transcript_stretches (engine : EngineM (StateM σ) α) (source : StateM σ Settings)
    (calls : List (Call σ)) (world : σ) :
    let entries := ((({} : Session α).transcript engine source calls).run world).1
    entries.map (·.call) = calls ∧
      (∀ e ∈ entries, e.isInvalidation = true → e.log.loaded = [] ∧ e.log.replies = []) ∧
      ∀ stretch ∈ entries.splitOnP (·.isInvalidation), Stretch stretch := by
  obtain ⟨hcalls, hlogs⟩ := transcript_calls engine source ({} : Session α) calls world
  obtain ⟨first, rest, hsplit, hfirst, hrest⟩ :=
    splitOnP_transcript engine source ({} : Session α) calls world
  refine ⟨hcalls, hlogs, ?_⟩
  rw [hsplit]
  exact List.forall_mem_cons.mpr ⟨hfirst rfl, hrest⟩

end Session

end Caret.Expansion
