-- Tables that keep their entries in the order in which the keys were first
-- entered. A table holds each key once.

namespace LetPoly

/-- Entries by key, in the order of their first insertion. No two entries have one key. -/
@[ext]
structure Table (κ α : Type) where
  entries : List (κ × α)
  nodup : (entries.map (·.1)).Nodup
deriving DecidableEq, Repr

namespace Table

variable {κ α β : Type}

/-! ## Entries -/

/-- Entries with each value changed, unless one of the changes fails. The keys stay. -/
def mapEntries? (f : α → Option β) : (entries : List (κ × α)) →
    Option { others : List (κ × β) // others.map (·.1) = entries.map (·.1) }
  | [] => some ⟨[], rfl⟩
  | (k, a) :: rest => do
    let b ← f a
    let more ← mapEntries? f rest
    some ⟨(k, b) :: more.1, congrArg (k :: ·) more.2⟩

variable [DecidableEq κ]

/-- The first value entered under a key in a list of entries. -/
def find? (key : κ) : List (κ × α) → Option α
  | [] => none
  | (k, a) :: rest => if k = key then some a else find? key rest

/-- A list of entries with a value put under a key: in its old place, or else at the end. -/
def put (key : κ) (value : α) : List (κ × α) → List (κ × α)
  | [] => [(key, value)]
  | (k, a) :: rest => if k = key then (k, value) :: rest else (k, a) :: put key value rest

/-- A key that is there keeps its place, and a new one comes last. -/
theorem keys_put (key : κ) (value : α) (entries : List (κ × α)) :
    (put key value entries).map (·.1) =
      if key ∈ entries.map (·.1) then entries.map (·.1) else entries.map (·.1) ++ [key] := by
  induction entries with
  | nil => simp [put]
  | cons entry rest ih =>
    by_cases hk : entry.1 = key
    · simp [put, hk]
    · by_cases hmem : key ∈ rest.map (·.1)
      · simp [put, hk, ih, hmem]
      · simp [put, hk, ih, hmem, Ne.symm hk]

theorem nodup_put {entries : List (κ × α)} (h : (entries.map (·.1)).Nodup) (key : κ) (value : α) :
    ((put key value entries).map (·.1)).Nodup := by
  rw [keys_put]
  split
  · exact h
  · rename_i hmem
    refine List.nodup_append.2 ⟨h, List.pairwise_singleton _ key, fun a ha b hb hab => ?_⟩
    rw [List.mem_singleton.1 hb] at hab
    exact hmem (hab ▸ ha)

/-! ## Tables -/

/-- The table without entries. -/
def empty : Table κ α := ⟨[], List.nodup_nil⟩

instance : Inhabited (Table κ α) := ⟨empty⟩

/-- The table with one entry. -/
def single (key : κ) (value : α) : Table κ α := ⟨[(key, value)], List.pairwise_singleton _ key⟩

/-- The value of a key. -/
def get? (t : Table κ α) (key : κ) : Option α := find? key t.entries

/-- The table with a value put under a key. A key already present keeps its place. -/
def insert (t : Table κ α) (key : κ) (value : α) : Table κ α :=
  ⟨put key value t.entries, nodup_put t.nodup key value⟩

/-- The table with several values put in, one after the other. -/
def insertAll (t : Table κ α) (entries : List (κ × α)) : Table κ α :=
  entries.foldl (fun t (k, a) => t.insert k a) t

/-- The table of the given entries. Of two entries with one key the later value counts. -/
def ofList (entries : List (κ × α)) : Table κ α := empty.insertAll entries

/-- The keys, in order. -/
def keys (t : Table κ α) : List κ := t.entries.map (·.1)

/-- The values, in order. -/
def values (t : Table κ α) : List α := t.entries.map (·.2)

/-- The number of entries. -/
def size (t : Table κ α) : Nat := t.entries.length

/-- The table without the given keys. -/
def without (t : Table κ α) (keys : List κ) : Table κ α :=
  ⟨t.entries.filter fun (k, _) => k ∉ keys, t.nodup.sublist (List.filter_sublist.map _)⟩

/-- The table with each value changed. -/
def map (f : α → β) (t : Table κ α) : Table κ β :=
  ⟨t.entries.map fun (k, a) => (k, f a), by simpa [Function.comp_def] using t.nodup⟩

/-- The table with each value changed, unless one of the changes fails. -/
def map? (f : α → Option β) (t : Table κ α) : Option (Table κ β) :=
  (mapEntries? f t.entries).map fun others => ⟨others.1, by rw [others.2]; exact t.nodup⟩

/-- The entries of a table, and after them those of another under other keys. -/
def append (t other : Table κ α) : Table κ α :=
  ⟨t.entries ++ (other.without t.keys).entries, by
    rw [List.map_append]
    refine List.nodup_append.2 ⟨t.nodup, (other.without t.keys).nodup, fun a ha b hb hab => ?_⟩
    obtain ⟨entry, hentry, rfl⟩ := List.mem_map.1 hb
    have hkey : entry.1 ∉ t.keys := by simpa using (List.mem_filter.1 hentry).2
    exact hkey (hab ▸ ha)⟩

/-! ## Laws -/

theorem find?_put (key : κ) (value : α) (other : κ) (entries : List (κ × α)) :
    find? other (put key value entries) =
      if key = other then some value else find? other entries := by
  induction entries with
  | nil => rfl
  | cons entry rest ih =>
    obtain ⟨k, a⟩ := entry
    by_cases hk : k = key
    · subst hk
      by_cases ho : k = other <;> simp [put, find?, ho]
    · by_cases ho : k = other
      · subst ho
        simp [put, find?, hk, Ne.symm hk]
      · simp [put, find?, hk, ho, ih]

/-- What is put under a key is found there, and nothing else changes. -/
theorem get?_insert (t : Table κ α) (key : κ) (value : α) (other : κ) :
    (t.insert key value).get? other = if key = other then some value else t.get? other :=
  find?_put key value other t.entries

theorem find?_append (key : κ) (front back : List (κ × α)) :
    find? key (front ++ back) = (find? key front).or (find? key back) := by
  induction front with
  | nil => rfl
  | cons entry rest ih =>
    obtain ⟨k, a⟩ := entry
    by_cases h : k = key <;> simp [find?, h, ih]

end Table

end LetPoly
