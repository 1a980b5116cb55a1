/-
  The relationships of a scope are those that the walk mentions.

  A statement declares a relationship and replaces one that is there; a step uses one and
  brings it into being only if there is none. Either is a `Mention`, and the tables of
  channels and data flows are what is left of the mentions of a walk (`perform_fold`). A key
  stands where it was mentioned first (`keys_foldl_mention`) and holds what was declared last
  under it, or else what was used first (`get?_foldl_mention`).
-/
import ArchScript.Proofs.Elaboration.Perform
import Mathlib.Data.List.Induction

namespace ArchScript

/-! ## Lists without repetitions -/

section EraseDups

variable {α β : Type}

theorem eraseDups_concat [BEq α] [LawfulBEq α] (l : List α) (a : α) :
    (l ++ [a]).eraseDups = if a ∈ l then l.eraseDups else l.eraseDups ++ [a] := by
  rw [List.eraseDups_append]
  by_cases h : a ∈ l <;> simp [List.removeAll, List.eraseDups_cons, h]

/-- Repetitions of images are images of repetitions when no two elements have one image. -/
theorem eraseDups_map [BEq α] [LawfulBEq α] [BEq β] [LawfulBEq β] {f : α → β} {l : List α}
    (hf : ∀ a ∈ l, ∀ b ∈ l, f a = f b → a = b) : (l.map f).eraseDups = l.eraseDups.map f := by
  induction l using List.reverseRecOn with
  | nil => rfl
  | append_singleton l a ih =>
    have hl : ∀ x ∈ l, x ∈ l ++ [a] := fun x hx => List.mem_append_left _ hx
    have ha : a ∈ l ++ [a] := List.mem_append_right _ (List.mem_singleton.2 rfl)
    have hmem : f a ∈ l.map f ↔ a ∈ l := by
      constructor
      · intro h
        obtain ⟨b, hb, e⟩ := List.mem_map.1 h
        rw [← hf b (hl b hb) a ha e]
        exact hb
      · exact List.mem_map_of_mem
    rw [List.map_append, List.map_singleton, eraseDups_concat, eraseDups_concat,
      ih fun x hx y hy => hf x (hl x hx) y (hl y hy)]
    by_cases h : a ∈ l <;> simp [hmem, h]

/-- Lists are equal when their images are and no two of their elements have one image. -/
theorem eq_of_map_eq {f : α → β} {xs ys : List α} (hf : ∀ x ∈ xs, ∀ y ∈ ys, f x = f y → x = y)
    (h : xs.map f = ys.map f) : xs = ys := by
  induction xs generalizing ys with
  | nil => rw [List.map_eq_nil_iff.1 h.symm]
  | cons x xs ih =>
    cases ys with
    | nil => cases h
    | cons y ys =>
      obtain ⟨hhead, htail⟩ := List.cons.inj h
      rw [hf x List.mem_cons_self y List.mem_cons_self hhead,
        ih (fun x hx y hy => hf x (List.mem_cons_of_mem _ hx) y (List.mem_cons_of_mem _ hy)) htail]

end EraseDups

/-! ## Mentions -/

/-- A value that is declared, or that is used where it need not be declared. -/
inductive Mention (α : Type) where
  | declares (v : α)
  | uses (v : α)

namespace Mention

variable {α : Type}

def value : Mention α → α
  | declares v => v
  | uses v => v

def declared? : Mention α → Option α
  | declares v => some v
  | uses _ => none

/-- The values with the key `k` that are declared, in order. -/
def declaredUnder {κ : Type} [DecidableEq κ] (key : α → κ) (k : κ) (ms : List (Mention α)) :
    List α :=
  (ms.filterMap declared?).filter fun v => key v = k

end Mention

namespace Table

open Mention

variable {κ α : Type} [DecidableEq κ]

/-- What a mention does to the table of the values: a declared value replaces the one of its
key, a used value goes to the end if its key is new. -/
def mention (key : α → κ) (t : Table κ α) : Mention α → Table κ α
  | .declares v => t.insert (key v) v
  | .uses v => t.insertIfNew (key v) v

variable {key : α → κ}

theorem keys_mention (t : Table κ α) (m : Mention α) :
    (t.mention key m).keys =
      if key m.value ∈ t.keys then t.keys else t.keys ++ [key m.value] := by
  cases m with
  | declares v => exact keys_insert t (key v) v
  | uses v =>
    simp only [mention, insertIfNew, Mention.value, contains_iff]
    by_cases h : key v ∈ t.keys <;> simp [h, keys_insert]

theorem get?_mention (t : Table κ α) (m : Mention α) (k : κ) :
    (t.mention key m).get? k =
      if key m.value = k then m.declared?.or ((t.get? k).or (some m.value)) else t.get? k := by
  cases m with
  | declares v => exact get?_insert t (key v) k v
  | uses v =>
    simp only [mention, insertIfNew, Mention.value, Mention.declared?, Option.none_or]
    by_cases hk : key v = k
    · subst hk
      cases hv : t.get? (key v) with
      | none => simp [contains, hv, get?_insert]
      | some w => simp [contains, hv]
    · split <;> simp [get?_insert, hk]

theorem Keyed.mention {t : Table κ α} (h : Keyed key t) (m : Mention α) :
    Keyed key (t.mention key m) := by
  cases m with
  | declares v => exact h.insert v
  | uses v =>
    simp only [Table.mention, insertIfNew]
    split
    · exact h
    · exact h.insert v

theorem keyed_foldl_mention (ms : List (Mention α)) :
    Keyed key (ms.foldl (mention key) empty) := by
  induction ms using List.reverseRecOn with
  | nil => exact keyed_empty key
  | append_singleton ms m ih =>
    rw [List.foldl_append]
    exact ih.mention m

/-- The keys stand in the order of their first mentions. -/
theorem keys_foldl_mention (ms : List (Mention α)) :
    (ms.foldl (mention key) empty).keys = (ms.map fun m => key m.value).eraseDups := by
  induction ms using List.reverseRecOn with
  | nil => rfl
  | append_singleton ms m ih =>
    rw [List.foldl_append, List.foldl_cons, List.foldl_nil, keys_mention, ih, List.map_append,
      List.map_singleton, eraseDups_concat]
    simp only [List.mem_eraseDups]

theorem declaredUnder_concat (k : κ) (ms : List (Mention α)) (m : Mention α) :
    declaredUnder key k (ms ++ [m]) =
      declaredUnder key k ms ++ m.declared?.toList.filter fun v => key v = k := by
  unfold declaredUnder
  rw [List.filterMap_append, List.filter_append]
  cases h : m.declared? <;> simp [h]

/-- A key holds what was declared last under it, or else what was used first. -/
theorem get?_foldl_mention (ms : List (Mention α)) (k : κ) :
    (ms.foldl (mention key) empty).get? k =
      (declaredUnder key k ms).getLast?.or ((ms.map Mention.value).find? fun v => key v = k) := by
  induction ms using List.reverseRecOn with
  | nil => rfl
  | append_singleton ms m ih =>
    rw [List.foldl_append, List.foldl_cons, List.foldl_nil, get?_mention, ih,
      declaredUnder_concat, List.map_append, List.map_singleton, List.find?_append]
    cases m with
    | declares v =>
      by_cases hk : key v = k <;> simp [Mention.declared?, Mention.value, hk]
    | uses v =>
      by_cases hk : key v = k <;> simp [Mention.declared?, Mention.value, hk]

/-- A value of the table was mentioned: it was declared last under its key, or used and never
declared. -/
theorem exists_mention_of_mem_values {ms : List (Mention α)} {v : α}
    (hv : v ∈ (ms.foldl (mention key) empty).values) :
    (declaredUnder key (key v) ms).getLast? = some v ∨
      declaredUnder key (key v) ms = [] ∧ .uses v ∈ ms := by
  rw [(keyed_foldl_mention ms).mem_values_iff, get?_foldl_mention, Option.or_eq_some_iff,
    List.getLast?_eq_none_iff] at hv
  refine hv.imp_right fun ⟨hnone, hfind⟩ => ⟨hnone, ?_⟩
  obtain ⟨m, hm, rfl⟩ := List.mem_map.1 (List.mem_of_find?_eq_some hfind)
  cases m with
  | uses v => exact hm
  | declares v =>
    -- a declared value would be among those of its key
    have hmem : v ∈ declaredUnder key (key v) ms :=
      List.mem_filter.2 ⟨List.mem_filterMap.2 ⟨_, hm, rfl⟩, decide_eq_true rfl⟩
    rw [Mention.value] at hnone
    rw [hnone] at hmem
    cases hmem

theorem mem_of_mem_declaredUnder {ms : List (Mention α)} {k : κ} {v : α}
    (h : v ∈ declaredUnder key k ms) : .declares v ∈ ms := by
  obtain ⟨m, hm, hv⟩ := List.mem_filterMap.1 (List.mem_filter.1 h).1
  cases m with
  | declares w =>
    cases hv
    exact hm
  | uses w => cases hv

theorem value_mem_of_mem_values {ms : List (Mention α)} {v : α}
    (hv : v ∈ (ms.foldl (mention key) empty).values) : v ∈ ms.map Mention.value := by
  rcases exists_mention_of_mem_values hv with h | ⟨_, h⟩
  · exact List.mem_map_of_mem (mem_of_mem_declaredUnder (List.mem_of_getLast? h))
  · exact List.mem_map_of_mem h

/-- When keys tell the signatures of the mentions apart, the table has one value for every
signature, in the order of the first mentions. -/
theorem map_values_foldl_mention {σ : Type} [BEq σ] [LawfulBEq σ] {sign : α → σ} (keyOf : σ → κ)
    (hkey : ∀ v, keyOf (sign v) = key v) {ms : List (Mention α)}
    (hinj : ∀ v ∈ ms.map Mention.value, ∀ w ∈ ms.map Mention.value,
      key v = key w → sign v = sign w) :
    (ms.foldl (mention key) empty).values.map sign =
      (ms.map fun m => sign m.value).eraseDups := by
  have hsign : ∀ x ∈ ms.map fun m => sign m.value, ∃ v ∈ ms.map Mention.value, sign v = x := by
    intro x hx
    obtain ⟨m, hm, rfl⟩ := List.mem_map.1 hx
    exact ⟨m.value, List.mem_map_of_mem hm, rfl⟩
  have hkeyOf : ∀ v ∈ ms.map Mention.value, ∀ w ∈ ms.map Mention.value,
      keyOf (sign v) = keyOf (sign w) → sign v = sign w := by
    intro v hv w hw e
    rw [hkey, hkey] at e
    exact hinj v hv w hw e
  refine eq_of_map_eq (f := keyOf) ?_ ?_
  · intro x hx y hy e
    obtain ⟨v, hv, rfl⟩ := List.mem_map.1 hx
    obtain ⟨w, hw, rfl⟩ := hsign y (List.mem_eraseDups.1 hy)
    exact hkeyOf v (value_mem_of_mem_values hv) w hw e
  · calc ((ms.foldl (mention key) empty).values.map sign).map keyOf
      _ = (ms.foldl (mention key) empty).values.map key := by
        rw [List.map_map]
        exact List.map_congr_left fun v _ => hkey v
      _ = (ms.foldl (mention key) empty).keys := (keyed_foldl_mention ms).map_values
      _ = (ms.map fun m => key m.value).eraseDups := keys_foldl_mention ms
      _ = ((ms.map fun m => sign m.value).map keyOf).eraseDups := by
        rw [List.map_map]
        exact congrArg _ (List.map_congr_left fun m _ => (hkey m.value).symm)
      _ = (ms.map fun m => sign m.value).eraseDups.map keyOf := by
        refine eraseDups_map fun x hx y hy e => ?_
        obtain ⟨v, hv, rfl⟩ := hsign x hx
        obtain ⟨w, hw, rfl⟩ := hsign y hy
        exact hkeyOf v hv w hw e

end Table

/-! ## Mentions of a walk -/

namespace Effect

/-- The channel that an effect declares or uses. -/
def channelMention? : Effect → Option (Mention Channel)
  | declareChannel c => some (.declares c)
  | useChannel c => some (.uses c)
  | _ => none

/-- The data flow that an effect declares or uses. -/
def flowMention? : Effect → Option (Mention DataFlow)
  | declareFlow f => some (.declares f)
  | useFlow f => some (.uses f)
  | _ => none

/-- The scenario that an effect adds. -/
def scenario? : Effect → Option Scenario
  | addScenario x => some x
  | _ => none

theorem channels_apply (e : Effect) (s : Scope) :
    (e.apply s).channels =
      e.channelMention?.toList.foldl (Table.mention Channel.id) s.channels := by
  cases e with
  | useChannel c =>
    simp only [apply, channelMention?, Option.toList_some, List.foldl_cons, List.foldl_nil,
      Table.mention, Table.insertIfNew]
    split <;> rfl
  | useFlow f => exact useFlow_frame Scope.channels (fun _ _ => rfl) f s
  | setNote target text => exact Scope.updateActor_frame Scope.channels (fun _ _ => rfl) s target _
  | assign target refs => exact Scope.updateActor_frame Scope.channels (fun _ _ => rfl) s target _
  | _ => rfl

theorem dataFlows_apply (e : Effect) (s : Scope) :
    (e.apply s).dataFlows =
      e.flowMention?.toList.foldl (Table.mention DataFlow.id) s.dataFlows := by
  cases e with
  | useFlow f =>
    simp only [apply, flowMention?, Option.toList_some, List.foldl_cons, List.foldl_nil,
      Table.mention, Table.insertIfNew]
    split <;> rfl
  | useChannel c => exact useChannel_frame Scope.dataFlows (fun _ _ => rfl) c s
  | setNote target text => exact Scope.updateActor_frame Scope.dataFlows (fun _ _ => rfl) s target _
  | assign target refs => exact Scope.updateActor_frame Scope.dataFlows (fun _ _ => rfl) s target _
  | _ => rfl

theorem scenarios_apply (e : Effect) (s : Scope) :
    (e.apply s).scenarios = e.scenario?.toList.foldl (fun xs x => xs ++ [x]) s.scenarios := by
  cases e with
  | useFlow f => exact useFlow_frame Scope.scenarios (fun _ _ => rfl) f s
  | useChannel c => exact useChannel_frame Scope.scenarios (fun _ _ => rfl) c s
  | setNote target text => exact Scope.updateActor_frame Scope.scenarios (fun _ _ => rfl) s target _
  | assign target refs => exact Scope.updateActor_frame Scope.scenarios (fun _ _ => rfl) s target _
  | _ => rfl

end Effect

/-- What is seen of the effects among acts; checks show nothing. -/
def Act.effect? {β : Type} (see : Effect → Option β) : Act → Option β
  | check _ => none
  | effect e => see e

/-- A part of the scope that every effect changes by what is seen of it, acts change by what
is seen of them. -/
theorem perform_fold {β γ : Type} {part : Scope → γ} {see : Effect → Option β} {add : γ → β → γ}
    (hstep : ∀ e s, part (e.apply s) = (see e).toList.foldl add (part s))
    {policy : Redeclaration} {acts : List Act} {s s' : Scope}
    (h : perform policy acts s = .ok s') :
    part s' = (acts.filterMap (Act.effect? see)).foldl add (part s) := by
  induction acts generalizing s with
  | nil =>
    cases h
    rfl
  | cons a acts ih =>
    cases a with
    | check c =>
      obtain ⟨_, _, h⟩ := Reader.bind_eq_ok.1 h
      exact ih h
    | effect e =>
      rw [ih h, hstep, List.filterMap_cons, Act.effect?]
      cases see e <;> rfl

end ArchScript
