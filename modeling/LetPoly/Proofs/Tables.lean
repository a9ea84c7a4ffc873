-- The laws of tables: what is found in them, what a change of every value does, and
-- when two tables hold the same keys side by side with related values.
import LetPoly.Table
import Mathlib.Data.List.Forall2

namespace LetPoly.Table

variable {κ α β : Type} {R : α → β → Prop}

/-! ## Tables changed value by value -/

@[simp] theorem keys_empty : (empty : Table κ α).keys = [] := rfl

@[simp] theorem keys_single (key : κ) (a : α) : (single key a).keys = [key] := rfl

@[simp] theorem values_single (key : κ) (a : α) : (single key a).values = [a] := rfl

theorem nodup_keys (t : Table κ α) : t.keys.Nodup := t.nodup

@[simp] theorem keys_map (f : α → β) (t : Table κ α) : (t.map f).keys = t.keys := by
  simp [map, keys]

@[simp] theorem values_map (f : α → β) (t : Table κ α) : (t.map f).values = t.values.map f := by
  simp [map, values]

theorem map_congr {f g : α → β} {t : Table κ α} (h : ∀ a ∈ t.values, f a = g a) :
    t.map f = t.map g := by
  refine Table.ext (List.map_congr_left fun entry he => Prod.ext rfl ?_)
  exact h entry.2 (List.mem_map_of_mem he)

@[simp] theorem map_map {γ : Type} (f : α → β) (g : β → γ) (t : Table κ α) :
    (t.map f).map g = t.map (g ∘ f) :=
  Table.ext (by simp [map])

theorem map_eq_self {f : α → α} {t : Table κ α} (h : ∀ a ∈ t.values, f a = a) : t.map f = t := by
  refine (map_congr h).trans (Table.ext ?_)
  simp [map]

/-- Where each value can be changed, the entries are those with the values changed. -/
theorem mapEntries?_eq_some {f : α → Option β} {g : α → β} {entries : List (κ × α)}
    (h : ∀ entry ∈ entries, f entry.2 = some (g entry.2)) :
    mapEntries? f entries = some ⟨entries.map fun e => (e.1, g e.2), by simp⟩ := by
  induction entries with
  | nil => rfl
  | cons entry rest ih =>
    obtain ⟨hentry, hrest⟩ := List.forall_mem_cons.1 h
    rw [mapEntries?, hentry, ih hrest]
    rfl

theorem map?_eq_some {f : α → Option β} {g : α → β} {t : Table κ α}
    (h : ∀ a ∈ t.values, f a = some (g a)) : t.map? f = some (t.map g) := by
  rw [map?, mapEntries?_eq_some fun entry he => h entry.2 (List.mem_map_of_mem he)]
  rfl

theorem mem_mapEntries? {f : α → Option β} {entries : List (κ × α)}
    {others : { others : List (κ × β) // others.map (·.1) = entries.map (·.1) }}
    (h : mapEntries? f entries = some others) {k : κ} {b : β} (hb : (k, b) ∈ others.1) :
    ∃ a, (k, a) ∈ entries ∧ f a = some b := by
  induction entries with
  | nil =>
    cases h
    cases hb
  | cons entry rest ih =>
    obtain ⟨key, a⟩ := entry
    rw [mapEntries?] at h
    rcases ha : f a with _ | c
    · simp [ha] at h
    · rcases hrest : mapEntries? f rest with _ | more
      · simp [ha, hrest] at h
      · simp only [ha, hrest, Option.bind_eq_bind, Option.bind_some, Option.some.injEq] at h
        subst h
        rcases List.mem_cons.1 hb with heq | hb
        · cases heq
          exact ⟨a, by simp, ha⟩
        · obtain ⟨a', hmem, ha'⟩ := ih hrest hb
          exact ⟨a', List.mem_cons_of_mem _ hmem, ha'⟩

theorem mem_map? {f : α → Option β} {t : Table κ α} {u : Table κ β} (h : t.map? f = some u) {k : κ}
    {b : β} (hb : (k, b) ∈ u.entries) : ∃ a, (k, a) ∈ t.entries ∧ f a = some b := by
  obtain ⟨others, he, rfl⟩ := Option.map_eq_some_iff.1 h
  exact mem_mapEntries? he hb

/-! ## Tables side by side -/

/-- Two tables hold the same keys in the same order, with related values. -/
def Rel (R : α → β → Prop) (t : Table κ α) (u : Table κ β) : Prop :=
  List.Forall₂ (fun a b => a.1 = b.1 ∧ R a.2 b.2) t.entries u.entries

theorem rel_empty : Rel R (empty : Table κ α) empty := List.Forall₂.nil

theorem Rel.imp {S : α → β → Prop} {t : Table κ α} {u : Table κ β} (h : Rel R t u)
    (himp : ∀ a ∈ t.values, ∀ b ∈ u.values, R a b → S a b) : Rel S t u := by
  unfold Rel at h ⊢
  simp only [values] at himp
  generalize t.entries = entries at h himp
  generalize u.entries = others at h himp
  induction h with
  | nil => exact List.Forall₂.nil
  | @cons a b l l' hab _ ih =>
    refine List.Forall₂.cons ⟨hab.1, himp a.2 (by simp) b.2 (by simp) hab.2⟩ (ih ?_)
    intro x hx y hy
    exact himp x (by simp_all) y (by simp_all)

theorem rel_eq (t : Table κ α) : Rel Eq t t := List.forall₂_same.2 fun _ _ => ⟨rfl, rfl⟩

theorem Rel.flip {t : Table κ α} {u : Table κ β} (h : Rel R t u) :
    Rel (fun b a => R a b) u t :=
  List.Forall₂.flip (List.Forall₂.imp (fun _ _ hab => ⟨hab.1.symm, hab.2⟩) h)

theorem Rel.map_left {γ : Type} {S : γ → β → Prop} {f : α → γ} {t : Table κ α} {u : Table κ β}
    (h : Rel R t u) (himp : ∀ a ∈ t.values, ∀ b, R a b → S (f a) b) : Rel S (t.map f) u := by
  unfold Rel at h ⊢
  simp only [values, map] at himp ⊢
  generalize t.entries = entries at h himp
  generalize u.entries = others at h
  induction h with
  | nil => exact List.Forall₂.nil
  | @cons a b l l' hab _ ih =>
    refine List.Forall₂.cons ⟨hab.1, himp a.2 (by simp) b.2 hab.2⟩ (ih ?_)
    intro x hx
    exact himp x (by simp_all)

theorem Rel.map_right {γ : Type} {S : α → γ → Prop} {f : β → γ} {t : Table κ α} {u : Table κ β}
    (h : Rel R t u) (himp : ∀ b ∈ u.values, ∀ a, R a b → S a (f b)) : Rel S t (u.map f) :=
  (h.flip.map_left himp).flip

theorem Rel.exists_right {t : Table κ α} {u : Table κ β} (h : Rel R t u) {a : α}
    (ha : a ∈ t.values) : ∃ b ∈ u.values, R a b := by
  unfold Rel at h
  simp only [values] at ha ⊢
  generalize t.entries = entries at h ha
  generalize u.entries = others at h
  induction h with
  | nil => cases ha
  | @cons x y l l' hxy _ ih =>
    rcases List.mem_cons.1 ha with rfl | ha
    · exact ⟨y.2, by simp, hxy.2⟩
    · obtain ⟨b, hb, hr⟩ := ih ha
      exact ⟨b, List.mem_cons_of_mem _ hb, hr⟩

variable [DecidableEq κ]

/-! ## Looking up in tables -/

theorem find?_eq_none {key : κ} {entries : List (κ × α)} :
    find? key entries = none ↔ key ∉ entries.map (·.1) := by
  induction entries with
  | nil => simp [find?]
  | cons entry rest ih =>
    obtain ⟨k, a⟩ := entry
    by_cases h : k = key
    · simp [find?, h]
    · simp [find?, h, ih, Ne.symm h]

theorem find?_mem {key : κ} {a : α} {entries : List (κ × α)} (h : find? key entries = some a) :
    (key, a) ∈ entries := by
  induction entries with
  | nil => cases h
  | cons entry rest ih =>
    obtain ⟨k, b⟩ := entry
    by_cases hk : k = key
    · simp only [find?, hk, if_true, Option.some.injEq] at h
      simp [hk, h]
    · simp only [find?, hk, if_false] at h
      exact List.mem_cons_of_mem _ (ih h)

theorem get?_eq_none {t : Table κ α} {key : κ} : t.get? key = none ↔ key ∉ t.keys :=
  find?_eq_none

theorem mem_keys {t : Table κ α} {key : κ} : key ∈ t.keys ↔ ∃ a, t.get? key = some a := by
  rw [← Option.ne_none_iff_exists', ne_eq, get?_eq_none, Decidable.not_not]

theorem mem_values_of_get? {t : Table κ α} {key : κ} {a : α} (h : t.get? key = some a) :
    a ∈ t.values :=
  List.mem_map_of_mem (f := (·.2)) (find?_mem h)

theorem get?_map (f : α → β) (t : Table κ α) (key : κ) :
    (t.map f).get? key = (t.get? key).map f := by
  simp only [get?, map]
  induction t.entries with
  | nil => rfl
  | cons entry rest ih =>
    by_cases h : entry.1 = key
    · simp [find?, h]
    · simpa [find?, h] using ih

theorem map_insert (f : α → β) (t : Table κ α) (key : κ) (a : α) :
    (t.insert key a).map f = (t.map f).insert key (f a) := by
  refine Table.ext ?_
  simp only [map, Table.insert]
  induction t.entries with
  | nil => rfl
  | cons entry rest ih =>
    by_cases h : entry.1 = key
    · simp [put, h]
    · simp [put, h, ih]

theorem without_eq_self {t : Table κ α} {keys : List κ} (h : ∀ k ∈ t.keys, k ∉ keys) :
    t.without keys = t := by
  refine Table.ext (List.filter_eq_self.2 fun entry he => ?_)
  simpa using h entry.1 (List.mem_map_of_mem he)

@[simp] theorem without_nil (t : Table κ α) : t.without [] = t :=
  without_eq_self fun _ _ => List.not_mem_nil

theorem get?_without (t : Table κ α) (keys : List κ) (key : κ) :
    (t.without keys).get? key = if key ∈ keys then none else t.get? key := by
  simp only [without, get?]
  induction t.entries with
  | nil => simp [find?]
  | cons entry rest ih =>
    obtain ⟨k, a⟩ := entry
    by_cases hk : k ∈ keys
    · by_cases h : k = key
      · subst h
        simpa [hk] using ih
      · simpa [hk, find?, h] using ih
    · by_cases h : k = key
      · subst h
        simp [hk, find?]
      · simpa [hk, find?, h] using ih

theorem mem_keys_without {t : Table κ α} {keys : List κ} {key : κ} :
    key ∈ (t.without keys).keys ↔ key ∈ t.keys ∧ key ∉ keys := by
  simp only [mem_keys, get?_without]
  by_cases hk : key ∈ keys <;> simp [hk]

theorem without_congr {t : Table κ α} {keys others : List κ}
    (h : ∀ key ∈ t.keys, key ∈ keys ↔ key ∈ others) : t.without keys = t.without others := by
  refine Table.ext (List.filter_congr fun entry he => ?_)
  simp [h entry.1 (List.mem_map_of_mem he)]

theorem without_without (t : Table κ α) (keys others : List κ) :
    (t.without keys).without others = t.without (keys ++ others) := by
  refine Table.ext ?_
  simp only [without, List.filter_filter]
  refine List.filter_congr fun entry _ => ?_
  simp [Bool.and_comm]

theorem without_insert (t : Table κ α) (keys : List κ) (key : κ) (a : α) :
    (t.insert key a).without keys =
      if key ∈ keys then t.without keys else (t.without keys).insert key a := by
  by_cases hk : key ∈ keys
  · rw [if_pos hk]
    refine Table.ext ?_
    simp only [without, Table.insert]
    induction t.entries with
    | nil => simp [put, hk]
    | cons entry rest ih =>
      by_cases h : entry.1 = key
      · simp [put, h, hk]
      · simp only [put, h, if_false, List.filter_cons, ih]
  · rw [if_neg hk]
    refine Table.ext ?_
    simp only [without, Table.insert]
    induction t.entries with
    | nil => simp [put, hk]
    | cons entry rest ih =>
      by_cases h : entry.1 = key
      · simp [put, h, hk]
      · by_cases he : entry.1 ∈ keys
        · simpa [put, h, he] using ih
        · simpa [put, h, he] using ih

theorem without_insertAll {keys : List κ} {entries : List (κ × α)}
    (h : ∀ entry ∈ entries, entry.1 ∈ keys) (t : Table κ α) :
    (t.insertAll entries).without keys = t.without keys := by
  induction entries generalizing t with
  | nil => rfl
  | cons entry rest ih =>
    obtain ⟨hentry, hrest⟩ := List.forall_mem_cons.1 h
    exact (ih hrest (t.insert entry.1 entry.2)).trans
      ((without_insert t keys entry.1 entry.2).trans (if_pos hentry))

/-! ## Changes that may fail -/

/-- A change of all values goes through or fails at one of them; where it goes through, each key
finds the changed value. -/
theorem mapEntries?_cases (f : α → Option β) (entries : List (κ × α)) :
    (∃ others, mapEntries? f entries = some others ∧
        (∀ key, find? key others.1 = (find? key entries).bind f) ∧
        ∀ entry ∈ entries, f entry.2 ≠ none) ∨
      mapEntries? f entries = none ∧ ∃ entry ∈ entries, f entry.2 = none := by
  induction entries with
  | nil => exact .inl ⟨⟨[], rfl⟩, rfl, fun _ => rfl, by simp⟩
  | cons entry rest ih =>
    rcases hf : f entry.2 with _ | b
    · exact .inr ⟨by simp [mapEntries?, hf], entry, by simp, hf⟩
    · rcases ih with ⟨others, hrest, hget, hall⟩ | ⟨hnone, other, hother, hfail⟩
      · refine .inl ⟨⟨(entry.1, b) :: others.1, by simp [others.2]⟩,
          by simp [mapEntries?, hf, hrest], fun key => ?_,
          List.forall_mem_cons.2 ⟨by simp [hf], hall⟩⟩
        by_cases hk : entry.1 = key
        · simp [find?, hk, hf]
        · simpa [find?, hk] using hget key
      · exact .inr ⟨by simp [mapEntries?, hf, hnone], other, List.mem_cons_of_mem _ hother, hfail⟩

theorem map?_cases (f : α → Option β) (t : Table κ α) :
    (∃ u, t.map? f = some u ∧ (∀ key, u.get? key = (t.get? key).bind f) ∧
        ∀ a ∈ t.values, f a ≠ none) ∨
      t.map? f = none ∧ ∃ a ∈ t.values, f a = none := by
  rcases mapEntries?_cases f t.entries with ⟨others, hmap, hget, hall⟩ | ⟨hnone, entry, he, hf⟩
  · refine .inl ⟨⟨others.1, by rw [others.2]; exact t.nodup⟩, by rw [map?, hmap]; rfl, hget,
      fun a ha => ?_⟩
    obtain ⟨entry, he, rfl⟩ := List.mem_map.1 ha
    exact hall entry he
  · exact .inr ⟨by rw [map?, hnone]; rfl, entry.2, List.mem_map_of_mem he, hf⟩

/-! ## Each key once -/

theorem find?_of_mem {entries : List (κ × α)} (h : (entries.map (·.1)).Nodup) {key : κ} {a : α}
    (ha : (key, a) ∈ entries) : find? key entries = some a := by
  induction entries with
  | nil => cases ha
  | cons entry rest ih =>
    rw [List.map_cons, List.nodup_cons] at h
    rcases List.mem_cons.1 ha with rfl | ha
    · simp [find?]
    · have hne : entry.1 ≠ key := by
        rintro rfl
        exact h.1 (List.mem_map_of_mem (f := (·.1)) ha)
      simp [find?, hne, ih h.2 ha]

theorem get?_of_mem {t : Table κ α} {key : κ} {a : α} (ha : (key, a) ∈ t.entries) :
    t.get? key = some a :=
  find?_of_mem t.nodup ha

theorem exists_get?_of_mem_values {t : Table κ α} {a : α} (ha : a ∈ t.values) :
    ∃ key, t.get? key = some a := by
  obtain ⟨⟨key, a⟩, hmem, rfl⟩ := List.mem_map.1 ha
  exact ⟨key, get?_of_mem hmem⟩

theorem put_of_not_mem {key : κ} {entries : List (κ × α)} (h : key ∉ entries.map (·.1)) (a : α) :
    put key a entries = entries ++ [(key, a)] := by
  induction entries with
  | nil => rfl
  | cons entry rest ih =>
    rw [List.map_cons, List.mem_cons, not_or] at h
    rw [put, if_neg (Ne.symm h.1), ih h.2, List.cons_append]

theorem entries_insertAll {t : Table κ α} {entries : List (κ × α)}
    (h : ((t.entries ++ entries).map (·.1)).Nodup) :
    (t.insertAll entries).entries = t.entries ++ entries := by
  induction entries generalizing t with
  | nil => exact (List.append_nil _).symm
  | cons entry rest ih =>
    have hnew : entry.1 ∉ t.entries.map (·.1) := by
      intro hmem
      rw [List.map_append] at h
      exact (List.nodup_append.1 h).2.2 _ hmem _ List.mem_cons_self rfl
    have hput : (t.insert entry.1 entry.2).entries = t.entries ++ [entry] :=
      put_of_not_mem hnew entry.2
    have hrest := @ih (t.insert entry.1 entry.2) (by rw [hput]; simpa using h)
    rw [hput] at hrest
    exact hrest.trans (by simp)

/-- The table of entries with different keys holds just these. -/
theorem entries_ofList {entries : List (κ × α)} (h : (entries.map (·.1)).Nodup) :
    (ofList entries).entries = entries :=
  entries_insertAll (t := empty) h

/-! ## Tables one after the other -/

theorem get?_append (t u : Table κ α) (key : κ) :
    (t.append u).get? key = (t.get? key).or (u.get? key) := by
  show find? key (t.entries ++ (u.without t.keys).entries) = _
  rw [find?_append]
  show (t.get? key).or ((u.without t.keys).get? key) = _
  rw [get?_without]
  by_cases hk : key ∈ t.keys
  · obtain ⟨a, ha⟩ := mem_keys.1 hk
    simp [ha]
  · rw [if_neg hk]

theorem mem_keys_append {t u : Table κ α} {key : κ} :
    key ∈ (t.append u).keys ↔ key ∈ t.keys ∨ key ∈ u.keys := by
  simp only [mem_keys, get?_append]
  cases t.get? key <;> simp

theorem mem_entries_append {t u : Table κ α} {entry : κ × α}
    (h : entry ∈ (t.append u).entries) : entry ∈ t.entries ∨ entry ∈ u.entries :=
  (List.mem_append.1 h).imp_right List.mem_of_mem_filter

theorem mem_values_append {t u : Table κ α} {a : α} (h : a ∈ (t.append u).values) :
    a ∈ t.values ∨ a ∈ u.values := by
  obtain ⟨entry, he, rfl⟩ := List.mem_map.1 h
  exact (mem_entries_append he).imp List.mem_map_of_mem List.mem_map_of_mem

theorem map_without (f : α → β) (t : Table κ α) (keys : List κ) :
    (t.without keys).map f = (t.map f).without keys := by
  refine Table.ext ?_
  simp only [map, without, List.filter_map]
  rfl

theorem entries_append (t u : Table κ α) :
    (t.append u).entries = t.entries ++ (u.without t.keys).entries := rfl

@[simp] theorem append_empty (t : Table κ α) : t.append empty = t :=
  Table.ext (List.append_nil t.entries)

theorem map_append (f : α → β) (t u : Table κ α) :
    (t.append u).map f = (t.map f).append (u.map f) := by
  refine Table.ext ?_
  rw [entries_append, keys_map, ← map_without]
  exact List.map_append

theorem append_assoc (t u w : Table κ α) : (t.append u).append w = t.append (u.append w) := by
  have hrest : w.without (t.append u).keys = (w.without u.keys).without t.keys := by
    rw [without_without]
    refine without_congr fun key _ => ?_
    rw [mem_keys_append, List.mem_append, or_comm]
  refine Table.ext ?_
  rw [entries_append, entries_append, entries_append, hrest, List.append_assoc]
  congr 1
  exact (List.filter_append _ _).symm

/-! ## Looking up side by side -/

theorem Rel.get?_left {t : Table κ α} {u : Table κ β} (h : Rel R t u) {key : κ} {a : α}
    (ha : t.get? key = some a) : ∃ b, u.get? key = some b ∧ R a b := by
  unfold Rel at h
  simp only [get?] at ha ⊢
  generalize t.entries = entries at h ha
  generalize u.entries = others at h
  induction h with
  | nil => cases ha
  | @cons x y l l' hxy _ ih =>
    by_cases hk : x.1 = key
    · simp only [find?, hk, if_true, Option.some.injEq] at ha
      exact ⟨y.2, by simp [find?, ← hxy.1, hk], ha ▸ hxy.2⟩
    · simp only [find?, hk, if_false] at ha
      obtain ⟨b, hb, hr⟩ := ih ha
      exact ⟨b, by simp [find?, ← hxy.1, hk, hb], hr⟩

theorem Rel.get?_right {t : Table κ α} {u : Table κ β} (h : Rel R t u) {key : κ} {b : β}
    (hb : u.get? key = some b) : ∃ a, t.get? key = some a ∧ R a b :=
  h.flip.get?_left hb

theorem Rel.insert {t : Table κ α} {u : Table κ β} (h : Rel R t u) (key : κ) {a : α} {b : β}
    (hab : R a b) : Rel R (t.insert key a) (u.insert key b) := by
  unfold Rel at h
  unfold Rel Table.insert
  simp only
  generalize t.entries = entries at h
  generalize u.entries = others at h
  induction h with
  | nil => exact List.Forall₂.cons ⟨rfl, hab⟩ List.Forall₂.nil
  | @cons x y l l' hxy hrest ih =>
    by_cases hk : x.1 = key
    · simp only [put, hk, ← hxy.1, if_true]
      exact List.Forall₂.cons ⟨rfl, hab⟩ hrest
    · simp only [put, hk, ← hxy.1, if_false]
      exact List.Forall₂.cons ⟨rfl, hxy.2⟩ ih

/-! ## Values entered in a table -/

theorem mem_values_insert {t : Table κ α} {key : κ} {a b : α}
    (h : b ∈ (t.insert key a).values) : b = a ∨ b ∈ t.values := by
  simp only [Table.insert, values] at h ⊢
  generalize t.entries = entries at h
  induction entries with
  | nil => simpa [put] using h
  | cons entry rest ih =>
    by_cases hk : entry.1 = key
    · simp only [put, hk, if_true, List.map_cons, List.mem_cons] at h
      rcases h with h | h
      · exact Or.inl h
      · exact Or.inr (List.mem_cons_of_mem _ h)
    · simp only [put, hk, if_false, List.map_cons, List.mem_cons] at h
      rcases h with rfl | h
      · exact Or.inr (by simp)
      · exact (ih h).imp_right (List.mem_cons_of_mem _)

theorem mem_values_insertAll {t : Table κ α} {entries : List (κ × α)} {b : α}
    (h : b ∈ (t.insertAll entries).values) : b ∈ entries.map (·.2) ∨ b ∈ t.values := by
  induction entries generalizing t with
  | nil => exact Or.inr h
  | cons entry rest ih =>
    rcases ih h with h | h
    · exact Or.inl (List.mem_cons_of_mem _ h)
    · rcases mem_values_insert h with rfl | h
      · exact Or.inl (by simp)
      · exact Or.inr h

end LetPoly.Table
