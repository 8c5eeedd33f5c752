import VectorVrl.Proofs.Target

namespace VectorVrl.Proofs.Secrecy
open Lib.Effects Outcome Target

theorem apply_other {op : SecretOp} {key : String} (h : op.key ≠ key) (secrets : SecretMap) :
    (op.apply secrets)[key]? = secrets[key]? := by
  cases op with
  | set other value =>
    have hne : other ≠ key := h
    simp [SecretOp.apply, Std.ExtTreeMap.getElem?_insert, hne]
  | remove other =>
    have hne : other ≠ key := h
    simp [SecretOp.apply, Std.ExtTreeMap.getElem?_erase, hne]

theorem apply_own (op : SecretOp) (secrets secrets' : SecretMap) :
    (op.apply secrets)[op.key]? = (op.apply secrets')[op.key]? := by
  cases op <;> simp [SecretOp.apply, SecretOp.key]

section
variable [paths : ValuePaths]

/-- The keys that operations set or remove. -/
def touched (ops : List TargetOp) : List String :=
  (ops.filterMap TargetOp.onSecrets).map SecretOp.key

/-- A secret is read while it still stands as the event got it. -/
def ReadsSeed (ops : List TargetOp) (key : String) : Prop :=
  ∃ before rest, ops = before ++ .getSecret key :: rest ∧ key ∉ touched before

/-- What the operations before make of two targets whose seeds agree on some keys. -/
structure Alike (agreed : String → Prop) (seed seed' : SecretMap) (before : List TargetOp)
    (target target' : EventTarget) : Prop where
  value : target'.value = target.value
  metadata : target'.metadata = target.metadata
  shared : ∀ key, key ∈ touched before ∨ agreed key →
    target'.secrets[key]? = target.secrets[key]?
  kept : ∀ key, key ∉ touched before →
    target.secrets[key]? = seed[key]? ∧ target'.secrets[key]? = seed'[key]?

theorem touched_snoc (before : List TargetOp) (op : TargetOp) :
    touched (before ++ [op]) = touched before ++ (op.onSecrets.map SecretOp.key).toList := by
  rw [touched, touched, List.filterMap_append, List.map_append]
  congr 1
  cases h : op.onSecrets <;> simp [h]

section
variable {agreed : String → Prop} {seed seed' : SecretMap} {before : List TargetOp}
  {target target' : EventTarget}

/-- An operation that leaves the secrets alone. -/
theorem Alike.keeps (h : Alike agreed seed seed' before target target') {op : TargetOp}
    (hop : op.onSecrets = none) {after after' : EventTarget}
    (hvalue : after'.value = after.value) (hmetadata : after'.metadata = after.metadata)
    (hsecrets : after.secrets = target.secrets) (hsecrets' : after'.secrets = target'.secrets) :
    Alike agreed seed seed' (before ++ [op]) after after' := by
  have htouched : touched (before ++ [op]) = touched before := by
    rw [touched_snoc, hop, Option.map_none, Option.toList_none, List.append_nil]
  refine ⟨hvalue, hmetadata, ?_, ?_⟩
  · rw [htouched, hsecrets, hsecrets']
    exact h.shared
  · rw [htouched, hsecrets, hsecrets']
    exact h.kept

theorem Alike.writes (h : Alike agreed seed seed' before target target') {op : TargetOp}
    (write : SecretOp) (hop : op.onSecrets = some write) {after after' : EventTarget}
    (hvalue : after'.value = after.value) (hmetadata : after'.metadata = after.metadata)
    (hsecrets : after.secrets = write.apply target.secrets)
    (hsecrets' : after'.secrets = write.apply target'.secrets) :
    Alike agreed seed seed' (before ++ [op]) after after' := by
  have htouched : touched (before ++ [op]) = touched before ++ [write.key] := by
    rw [touched_snoc, hop, Option.map_some, Option.toList_some]
  refine ⟨hvalue, hmetadata, ?_, ?_⟩
  · intro key hkey
    rw [hsecrets, hsecrets']
    by_cases heq : write.key = key
    · rw [← heq]
      exact apply_own write _ _
    · rw [apply_other heq, apply_other heq]
      apply h.shared
      rw [htouched, List.mem_append, List.mem_singleton] at hkey
      exact hkey.imp_left fun hmem => hmem.resolve_right (Ne.symm heq)
  · intro key hkey
    rw [htouched, List.mem_append, List.mem_singleton, not_or] at hkey
    rw [hsecrets, hsecrets', apply_other (Ne.symm hkey.2), apply_other (Ne.symm hkey.2)]
    exact h.kept key hkey.1

/-- Operations answer alike, as long as the seeds agree on what is read off them. -/
theorem Alike.performs (h : Alike agreed seed seed' before target target') (op : TargetOp)
    (hread : ∀ key, op = .getSecret key → key ∉ touched before → agreed key) :
    (EventTarget.perform op target).1 = (EventTarget.perform op target').1 ∧
      Alike agreed seed seed' (before ++ [op]) (EventTarget.perform op target).2
        (EventTarget.perform op target').2 := by
  obtain ⟨value, metadata, secrets⟩ := target
  obtain ⟨value', metadata', secrets'⟩ := target'
  obtain rfl : value' = value := h.value
  obtain rfl : metadata' = metadata := h.metadata
  cases op with
  | insert p new =>
    obtain ⟨pre, path⟩ := p
    cases pre <;> exact ⟨rfl, h.keeps rfl rfl rfl rfl rfl⟩
  | get p =>
    obtain ⟨pre, path⟩ := p
    cases pre <;> exact ⟨rfl, h.keeps rfl rfl rfl rfl rfl⟩
  | getMut p write =>
    obtain ⟨pre, path⟩ := p
    cases pre <;> exact ⟨rfl, h.keeps rfl rfl rfl rfl rfl⟩
  | remove p compact =>
    obtain ⟨pre, path⟩ := p
    cases pre <;> exact ⟨rfl, h.keeps rfl rfl rfl rfl rfl⟩
  | getSecret key =>
    refine ⟨?_, h.keeps rfl rfl rfl rfl rfl⟩
    have hkey : key ∈ touched before ∨ agreed key := by
      by_cases hmem : key ∈ touched before
      · exact Or.inl hmem
      · exact Or.inr (hread key rfl hmem)
    exact (h.shared key hkey).symm
  | insertSecret key new => exact ⟨rfl, h.writes (.set key new) rfl rfl rfl rfl rfl⟩
  | removeSecret key => exact ⟨rfl, h.writes (.remove key) rfl rfl rfl rfl rfl⟩

end

/-- A run from two seeds that agree on the secrets it reads off them. -/
theorem run_alike {ρ : Type} (script : Script ρ) (value : Value) {seed seed' : SecretMap}
    (hagree : ∀ key, ReadsSeed (script.run EventTarget.perform (.new value seed)).ops key →
      seed'[key]? = seed[key]?) :
    let ran := script.run EventTarget.perform (.new value seed)
    let ran' := script.run EventTarget.perform (.new value seed')
    ran'.log = ran.log ∧ ran'.result = ran.result ∧
      Alike (fun key => ReadsSeed ran.ops key) seed seed' ran.ops ran.state ran'.state := by
  refine Prog.run_alike EventTarget.perform script _ _ ?_ ?_
  · refine ⟨rfl, rfl, ?_, fun key _ => ⟨rfl, rfl⟩⟩
    intro key hkey
    exact hagree key (hkey.resolve_left List.not_mem_nil)
  · intro before op rest target target' hops h
    apply h.performs op
    rintro key rfl hkey
    exact ⟨before, rest, hops, hkey⟩

section
variable [Libraries] [SerdeJson]

/-- The operations a program performs on one event. -/
def eventOps (script : Script (Except Terminate Value)) (eventData : String) (seed : SecretMap) :
    List TargetOp :=
  match eventValue eventData with
  | .ok value => (script.run EventTarget.perform (.new value seed)).ops
  | .error _ => []

/-- What one event yields from two seeds that agree on the secrets it reads off them. -/
theorem event_alike (script : Script (Except Terminate Value)) (eventData : String)
    {seed seed' : SecretMap}
    (hagree : ∀ key, ReadsSeed (eventOps script eventData seed) key →
      seed'[key]? = seed[key]?) :
    (executeVrlOnEvent (runScript script) eventData seed').result =
        (executeVrlOnEvent (runScript script) eventData seed).result ∧
      ∀ key, (executeVrlOnEvent (runScript script) eventData seed').secrets[key]? =
        if key ∈ touched (eventOps script eventData seed) then
          (executeVrlOnEvent (runScript script) eventData seed).secrets[key]?
        else seed'[key]? := by
  cases hvalue : eventValue eventData with
  | error outOfRange =>
    simp only [executeVrlOnEvent, eventOps, hvalue]
    exact ⟨trivial, fun key => (if_neg List.not_mem_nil).symm⟩
  | ok value =>
    simp only [eventOps, hvalue] at hagree ⊢
    obtain ⟨_, hresult, halike⟩ := run_alike script value hagree
    refine ⟨?_, fun key => ?_⟩
    · simp only [executeVrlOnEvent, hvalue, runScript, hresult, halike.value]
    · rw [outcome_secrets hvalue, outcome_secrets hvalue]
      split
      · rename_i htouched
        exact halike.shared key (Or.inl htouched)
      · rename_i huntouched
        exact (halike.kept key huntouched).2

/-- A secret that no event reads before setting or removing it shows in nothing the entry
points return, except that it is handed back under its own key. -/
theorem unread_secrets_unseen {compile : Compiler} {vrlCode : String} {program : Program}
    (hc : compileVrlProgram compile vrlCode = .ok program)
    {scripts : Nat → Script (Except Terminate Value)}
    (hp : ∀ i, program.resolve i = runScript (scripts i)) {inputData : List String}
    {seed seed' : SecretMap}
    (hagree : ∀ i event, inputData[i]? = some event →
      ∀ key, ReadsSeed (eventOps (scripts i) event seed) key → seed'[key]? = seed[key]?) :
    executeVrl compile vrlCode inputData (some seed') =
        executeVrl compile vrlCode inputData (some seed) ∧
      ∃ entries entries', executeVrlWithSecrets compile vrlCode inputData (some seed) = .ok entries ∧
        executeVrlWithSecrets compile vrlCode inputData (some seed') = .ok entries' ∧
        entries'.map (·.event) = entries.map (·.event) ∧
        ∀ i event entry entry', inputData[i]? = some event → entries[i]? = some entry →
          entries'[i]? = some entry' → ∀ key, entry'.secrets[key]? =
            if key ∈ touched (eventOps (scripts i) event seed) then entry.secrets[key]?
            else seed'[key]? := by
  have hdict : ∀ i event, inputData[i]? = some event →
      eventDict (program.resolve i) event seed' = eventDict (program.resolve i) event seed := by
    intro i event hevent
    rw [hp, eventDict, eventDict, (event_alike (scripts i) event (hagree i event hevent)).1]
  refine ⟨?_, _, _, execute_with_secrets_ok hc _ _, execute_with_secrets_ok hc _ _, ?_, ?_⟩
  · rw [execute_vrl_ok hc, execute_vrl_ok hc]
    refine congrArg Except.ok (List.ext_getElem (by simp) ?_)
    intro i h₁ h₂
    rw [List.length_mapIdx] at h₁
    rw [List.getElem_mapIdx, List.getElem_mapIdx]
    exact hdict i _ (List.getElem?_eq_getElem h₁)
  · refine List.ext_getElem (by simp) ?_
    intro i h₁ h₂
    rw [List.length_map, List.length_mapIdx] at h₁
    simp only [List.getElem_map, List.getElem_mapIdx]
    exact hdict i _ (List.getElem?_eq_getElem h₁)
  · intro i event entry entry' hevent hentry hentry'
    rw [List.getElem?_mapIdx, hevent] at hentry hentry'
    cases hentry
    cases hentry'
    simp only [hp]
    exact (event_alike (scripts i) event (hagree i event hevent)).2

end

end

section
local instance : Libraries := asciiLibraries
local instance : SerdeJson := readsDiskFull
local instance : ValuePaths := fieldPaths

/-- A program that replaces a secret, reads it back and copies another into the event. -/
def echoScript : Script (Except Terminate Value) :=
  .perform (.insertSecret "token" "new") fun _ => .perform (.getSecret "token") fun _ =>
    .perform (.getSecret "id") fun id =>
      .perform (.insert ⟨.event, "id"⟩ (secretValue id)) fun _ => .stop (.ok .null)

def echoProgram : Program := ⟨fun _ => runScript echoScript⟩

theorem compile_echo : compileVrlProgram (fun _ => .ok echoProgram) "." = .ok echoProgram :=
  compile_ok_iff.mpr ⟨(Nesting.check_accepts_iff _).mpr (by decide +kernel), rfl⟩

theorem echo_reads {seed : SecretMap} {key : String}
    (h : ReadsSeed (eventOps echoScript "ok" seed) key) : key = "id" := by
  obtain ⟨before, rest, hops, hfresh⟩ := h
  have hlength : (eventOps echoScript "ok" seed).length = 4 := rfl
  match before with
  | [] => cases hops
  | [_] =>
    cases hops
    exact absurd List.mem_cons_self hfresh
  | [_, _] =>
    cases hops
    rfl
  | [_, _, _] => cases hops
  | _ :: _ :: _ :: _ :: before =>
    rw [hops, List.length_append] at hlength
    simp only [List.length_cons] at hlength
    omega

theorem echo_unseen {seed seed' : SecretMap} (hid : seed'["id"]? = seed["id"]?) :
    ∀ (i : Nat) (event : String), ["ok"][i]? = some event →
      ∀ key, ReadsSeed (eventOps echoScript event seed) key → seed'[key]? = seed[key]? := by
  intro i event hevent key hread
  cases List.mem_singleton.mp (List.mem_of_getElem? hevent)
  rw [echo_reads hread]
  exact hid

theorem echo_token_unseen :
    executeVrl (fun _ => .ok echoProgram) "." ["ok"]
        (some ((∅ : SecretMap).insert "token" "old")) =
      executeVrl (fun _ => .ok echoProgram) "." ["ok"] (some ∅) :=
  (unread_secrets_unseen compile_echo (fun _ => rfl) (echo_unseen (by simp))).1

end

end VectorVrl.Proofs.Secrecy
