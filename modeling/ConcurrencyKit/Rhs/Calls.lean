import ConcurrencyKit.Rhs.Failure

/-!
# What every call preserves

The calls of `ck_rhs` are put together from a few parts: a growth, an installation where a probe has
ended, a deletion. What these preserve holds after every call, however often it has restarted.
-/

namespace ConcurrencyKit.Rhs

variable {V : Type} [DecidableEq V]

/-- What a probe for a key finds before an installation. -/
abbrev Map.probeInsert (cfg : Config V) (m : Map V) (key : V) (behavior : ProbeBehavior) :
    ProbeResult V :=
  m.probe cfg (cfg.hf key) key m.probeLimit behavior

/-- The object is stored under the key. -/
def Map.Stored (cfg : Config V) (m : Map V) (key object : V) : Prop :=
  ∃ w ∈ m.words, cfg.hit (cfg.hf key) key w = true ∧ w.obj = object

/-- The object that a probe finds is stored. -/
theorem Map.probe_stored {cfg : Config V} {m : Map V} {key object : V}
    {limit : Nat} {behavior : ProbeBehavior} (hl : Lines cfg.line m.capacity)
    (ho : (m.probe cfg (cfg.hf key) key limit behavior).object = some object) :
    m.Stored cfg key object := by
  have hfound := m.probe_found cfg (cfg.hf key) key limit behavior
  have hh : m.home (cfg.hf key) < m.capacity := home_lt hl.capacity_pos _
  generalize m.probe cfg (cfg.hf key) key limit behavior = r at hfound ho
  cases hs : r.slot with
  | none =>
    rw [hfound.missed hs] at ho
    cases ho
  | some s =>
    obtain ⟨k, hend, -⟩ := hfound.ends s hs
    rcases hend.word with ⟨-, hnone⟩ | ⟨w, hw, hhit, hsome⟩ | ⟨-, hnone⟩
    · rw [hnone] at ho
      cases ho
    · rw [hsome] at ho
      exact ⟨w, ⟨s, hend.slot ▸ cursor_lt hl hh k, hw⟩, hhit, Option.some.inj ho⟩
    · rw [hnone] at ho
      cases ho

omit [DecidableEq V] in
/-- The end of a call that has installed a word: an object that is new is counted. -/
def State.finish (cfg : Config V) (object : Option V) (res : Relocation × State V) : State V :=
  if res.1 = .moved ∧ object = none then res.2.postinsert cfg else res.2

omit [DecidableEq V] in
theorem State.finish_moved (cfg : Config V) (object : Option V) (hs : State V) :
    State.finish cfg object (.moved, hs) = if object.isSome then hs else hs.postinsert cfg := by
  cases object <;> rfl

/-- The parts of the calls preserve `I`. `A key object answer` says what an apply function may
answer to the stored object, or to `none`; the key itself is always an answer. -/
structure Preserved (cfg : Config V) (I : State V → Prop) (A : V → Option V → Option V → Prop) :
    Prop where
  key : ∀ key object, A key object (some key)
  lines : ∀ hs, I hs → Lines cfg.line hs.map.capacity
  grow : ∀ hs capacity, I hs → I (hs.grow cfg capacity).2
  load : ∀ hs loadFactor n, I hs → I ({ hs with loadFactor := loadFactor }.exec [.maxEntries n])
  gc : ∀ hs, I hs → I hs.gc
  reset : ∀ hs, I hs → I (hs.reset cfg).2
  remove : ∀ hs key, I hs → I (hs.remove cfg (cfg.hf key) key).2
  fas : ∀ hs key r hs', I hs → hs.fas cfg (cfg.hf key) key = .ok (r, hs') → I hs'
  delete : ∀ hs key object slot, I hs → A key (some object) none →
    (hs.map.probeInsert cfg key .insert).object = some object →
    (hs.map.probeInsert cfg key .insert).slot = some slot → I (hs.doBackwardShiftDelete cfg slot)
  install : ∀ hs key object insert behavior guard, I hs → A key object (some insert) →
    I (State.finish cfg (hs.map.probeInsert cfg key behavior).object
      (hs.install cfg (cfg.hf key) (hs.map.probeInsert cfg key behavior)
        (cfg.marshal insert (cfg.hf key)) guard))

/-- The answers of the apply function are among those of `A`. -/
def Op.Answers (cfg : Config V) (A : V → Option V → Option V → Prop) (hs : State V) : Op V → Prop
  | .apply key fn => A key none (fn none) ∧
    ∀ object, hs.map.Stored cfg key object → A key (some object) (fn (some object))
  | _ => True

/-- In a sequence of calls the answers are among those of `A`. -/
def Answering (cfg : Config V) (A : V → Option V → Option V → Prop) : State V → List (Op V) → Prop
  | _, [] => True
  | hs, op :: ops => op.Answers cfg A hs ∧
    ∀ r hs', step cfg hs op = .ok (r, hs') → Answering cfg A hs' ops

namespace Preserved

open State

variable {cfg : Config V} {I : State V → Prop} {A : V → Option V → Option V → Prop}
  {hs hs' : State V} {key : V} {fuel : Nat}

theorem putInternal (hp : Preserved cfg I A) {behavior : ProbeBehavior} {ok : Bool} (hI : I hs)
    (hput : putInternal cfg (cfg.hf key) key behavior fuel hs = .ok (ok, hs')) : I hs' := by
  induction fuel generalizing hs with
  | zero => cases hput
  | succ fuel ih =>
    rw [State.putInternal] at hput
    have hinstall := hp.install hs key none key behavior none hI (hp.key key none)
    split at hput
    · have hgrown := hp.grow hs (hs.map.capacity * 2) hI
      generalize hs.grow cfg (hs.map.capacity * 2) = res at hgrown hput
      obtain ⟨_ | _, hs₁⟩ := res
      · cases hput
        exact hgrown
      · exact ih hgrown hput
    split at hput
    · cases hput
      exact hI
    · rename_i hobject
      rw [Option.not_isSome_iff_eq_none] at hobject
      rw [hobject] at hinstall
      generalize hs.install cfg _ _ _ none = res at hinstall hput
      obtain ⟨_ | _ | _, hs₁⟩ := res
      · cases hput
        exact hinstall
      · cases hput
        exact hinstall
      · exact ih hinstall hput

theorem setLoop (hp : Preserved cfg I A) {r : Bool × Option V} (hI : I hs)
    (hset : setLoop cfg (cfg.hf key) key fuel hs = .ok (r, hs')) : I hs' := by
  induction fuel generalizing hs with
  | zero => cases hset
  | succ fuel ih =>
    rw [State.setLoop] at hset
    have hinstall := hp.install hs key none key .insert
      (hs.map.probeInsert cfg key .insert).slot hI (hp.key key none)
    unfold Map.probeInsert at hinstall
    generalize hs.map.probe cfg (cfg.hf key) key hs.map.probeLimit .insert = r' at hinstall hset
    split at hset
    · have hgrown := hp.grow hs (hs.map.capacity * 2) hI
      generalize hs.grow cfg (hs.map.capacity * 2) = res at hgrown hset
      obtain ⟨_ | _, hs₁⟩ := res
      · cases hset
        exact hgrown
      · exact ih hgrown hset
    · generalize hs.install cfg _ _ _ r'.slot = res at hinstall hset
      obtain ⟨_ | _ | _, hs₁⟩ := res
      · cases hset
        exact finish_moved cfg _ hs₁ ▸ hinstall
      · cases hset
        exact hinstall
      · exact ih hinstall hset

/-- The objects stay the same while the call restarts, so that the answer is to a stored one. -/
theorem applyLoop (hp : Preserved cfg I A) {fn : Option V → Option V} {ok : Bool} (hI : I hs)
    (hnone : A key none (fn none))
    (hsome : ∀ object, hs.map.Stored cfg key object → A key (some object) (fn (some object)))
    {delta : Option (Option V)}
    (hdelta : ∀ d, delta = some d → ∃ object insert, d = some insert ∧ A key object (some insert))
    (happly : applyLoop cfg (cfg.hf key) key fn fuel delta hs = .ok (ok, hs')) : I hs' := by
  induction fuel generalizing hs delta with
  | zero => cases happly
  | succ fuel ih =>
    rw [State.applyLoop] at happly
    have hinstall := fun object insert => hp.install hs key object insert .insert
      (hs.map.probeInsert cfg key .insert).slot hI
    have hdelete := fun object slot => hp.delete hs key object slot hI
    have hstored : ∀ object, (hs.map.probeInsert cfg key .insert).object = some object →
        hs.map.Stored cfg key object := fun _ => Map.probe_stored (hp.lines hs hI)
    unfold Map.probeInsert at hinstall hdelete hstored
    generalize hs.map.probe cfg (cfg.hf key) key hs.map.probeLimit .insert = r'
      at hinstall hdelete hstored happly
    split at happly
    · have hgrown := hp.grow hs (hs.map.capacity * 2) hI
      have hwords := (grow_grown cfg hs (hs.map.capacity * 2)).words
      generalize hs.grow cfg (hs.map.capacity * 2) = res at hgrown hwords happly
      obtain ⟨_ | _, hs₁⟩ := res
      · cases happly
        exact hgrown
      · refine ih hgrown (fun object hobject => hsome object ?_) hdelta happly
        unfold Map.Stored
        rw [← hwords]
        exact hobject
    -- the answer of the apply function, now or in a round before
    have hanswer : ∃ object, A key object (delta.getD (fn r'.object)) ∧
        (delta.getD (fn r'.object) = none → object = r'.object) := by
      cases delta with
      | some d =>
        obtain ⟨object, insert, rfl, hd⟩ := hdelta d rfl
        exact ⟨object, hd, fun hinsert => by cases hinsert⟩
      | none =>
        refine ⟨r'.object, ?_, fun _ => rfl⟩
        cases ho : r'.object with
        | none => exact hnone
        | some object => exact hsome object (hstored object ho)
    obtain ⟨object, hanswer, hsame⟩ := hanswer
    dsimp only at happly
    generalize delta.getD (fn r'.object) = answer at hanswer hsame happly
    cases answer with
    | none =>
      dsimp only at happly
      split at happly
      · rename_i o s ho hs
        cases happly
        rw [hsame rfl, ho] at hanswer
        exact hdelete o s hanswer ho hs
      · cases happly
        exact hI
    | some insert =>
      dsimp only at happly
      split at happly
      · cases happly
        exact hI
      have hinstall := hinstall object insert hanswer
      have hreloc := install_relocated cfg hs (cfg.hf key) r' (cfg.marshal insert (cfg.hf key))
        r'.slot
      generalize hs.install cfg _ r' _ r'.slot = res at hinstall hreloc happly
      cases hreloc with
      | grown hs₁ keeps =>
        refine ih hinstall (fun object hobject => hsome object ?_) ?_ happly
        · unfold Map.Stored
          rw [← keeps.words]
          exact hobject
        · rintro d ⟨⟩
          exact ⟨object, insert, rfl, hanswer⟩
      | failed hs₁ =>
        cases happly
        exact hinstall
      | moved hs₁ =>
        cases happly
        exact finish_moved cfg _ hs₁ ▸ hinstall

theorem loadLoop (hp : Preserved cfg I A) {ok : Bool} (hI : I hs)
    (hload : loadLoop cfg fuel hs = .ok (ok, hs')) : I hs' := by
  induction fuel generalizing hs with
  | zero => cases hload
  | succ fuel ih =>
    rw [State.loadLoop] at hload
    split at hload
    · have hgrown := hp.grow hs (hs.map.capacity * 2) hI
      generalize hs.grow cfg (hs.map.capacity * 2) = res at hgrown hload
      obtain ⟨_ | _, hs₁⟩ := res
      · cases hload
        exact hgrown
      · exact ih hgrown hload
    · cases hload
      exact hI

theorem step (hp : Preserved cfg I A) {op : Op V} {r : Result V} (hI : I hs)
    (hop : op.Answers cfg A hs) (hstep : step cfg hs op = .ok (r, hs')) : I hs' := by
  cases op with
  | put key | putUnique key =>
    obtain ⟨⟨ok, hs₁⟩, hput, he⟩ := bind_eq_ok.mp hstep
    cases he
    exact hp.putInternal hI hput
  | set key =>
    obtain ⟨⟨ok, hs₁⟩, hset, he⟩ := bind_eq_ok.mp hstep
    cases he
    exact hp.setLoop hI hset
  | fas key =>
    obtain ⟨⟨ok, hs₁⟩, hfas, he⟩ := bind_eq_ok.mp hstep
    cases he
    exact hp.fas hs key _ _ hI hfas
  | apply key fn =>
    obtain ⟨⟨ok, hs₁⟩, happly, he⟩ := bind_eq_ok.mp hstep
    cases he
    exact hp.applyLoop hI hop.1 hop.2 (fun d hd => by cases hd) happly
  | remove key =>
    cases hstep
    exact hp.remove hs key hI
  | get key =>
    cases hstep
    exact hI
  | grow capacity =>
    cases hstep
    exact hp.grow hs capacity hI
  | rebuild =>
    cases hstep
    exact hp.grow hs hs.map.capacity hI
  | gc =>
    cases hstep
    exact hp.gc hs hI
  | setLoadFactor loadFactor =>
    obtain ⟨⟨ok, hs₁⟩, hload, he⟩ := bind_eq_ok.mp hstep
    cases he
    unfold setLoadFactor at hload
    split at hload
    · cases hload
      exact hI
    · exact hp.loadLoop (hp.load hs loadFactor _ hI) hload
  | reset =>
    cases hstep
    exact hp.reset hs hI

theorem run (hp : Preserved cfg I A) {ops : List (Op V)} {rs : List (Result V)} (hI : I hs)
    (hops : Answering cfg A hs ops) (hrun : run cfg hs ops = .ok (rs, hs')) : I hs' := by
  induction ops generalizing hs rs with
  | nil =>
    cases hrun
    exact hI
  | cons op ops ih =>
    obtain ⟨⟨r, hs₁⟩, hstep, hrest⟩ := bind_eq_ok.mp hrun
    obtain ⟨⟨rs₁, hs₂⟩, hrun₁, he⟩ := bind_eq_ok.mp hrest
    cases he
    exact ih (hp.step hI hops.1 hstep) (hops.2 r hs₁ hstep) hrun₁

end Preserved

end ConcurrencyKit.Rhs
