import P2Pool.Util

/-! Go maps with string keys, as the payout code uses them: an association list with distinct keys
whose order nothing may rely on. Every `range` over a map visits its entries through a `MapOrder`,
any permutation at all, so a result proved for every order holds for Go's randomised one. -/
namespace P2Pool.Maps
open Util

abbrev GoMap (V : Type) := AList (fun _ : String => V)

abbrev Entry (V : Type) := Σ _ : String, V

structure MapOrder (V : Type) where
  visit : List (Entry V) → List (Entry V)
  perm : ∀ l, (visit l).Perm l

/- The index expression `m[k]`: the zero value for an absent key. -/
def index {V : Type} [Zero V] (m : GoMap V) (k : String) : V := (m.lookup k).getD 0

/- `m[k] += x` on a map of `int64`. -/
def addTo (wrap : Int → Int) (m : GoMap Int) (k : String) (x : Int) : GoMap Int :=
  m.insert k (wrap (index m k + x))

/- `for _, k := range ks { delete(m, k) }` -/
def eraseAll {V : Type} (m : GoMap V) (ks : List String) : GoMap V := ks.foldl (fun m k => m.erase k) m

def valueSum (m : GoMap Int) : Int := (m.entries.map (·.2)).sum

/- Two maps holding the same entries, in whatever order. -/
def SameContents {V : Type} (m₁ m₂ : GoMap V) : Prop := ∀ k, m₁.lookup k = m₂.lookup k

section
variable {V : Type}

theorem lookupInsert (m : GoMap V) (k a : String) (v : V) :
    (m.insert k v).lookup a = if a = k then some v else m.lookup a := by
  split_ifs with h
  · subst h; exact AList.lookup_insert m
  · exact AList.lookup_insert_ne h

theorem lookupErase (m : GoMap V) (k a : String) :
    (m.erase k).lookup a = if a = k then none else m.lookup a := by
  split_ifs with h
  · subst h; exact AList.lookup_erase a m
  · exact AList.lookup_erase_ne h

theorem lookupEraseAll (m : GoMap V) (ks : List String) (a : String) :
    (eraseAll m ks).lookup a = if a ∈ ks then none else m.lookup a := by
  induction ks generalizing m with
  | nil => rfl
  | cons k ks ih =>
    simp only [eraseAll, List.foldl_cons] at ih ⊢
    rw [ih, lookupErase]
    by_cases h : a = k <;> simp [h]

theorem memIffLookup {m : GoMap V} {a : String} : a ∈ m ↔ (m.lookup a).isSome :=
  AList.lookup_isSome.symm

/- Maps with the same lookups hold the same entries. -/
theorem entriesPerm {m₁ m₂ : GoMap V} (h : SameContents m₁ m₂) : m₁.entries.Perm m₂.entries :=
  List.lookup_ext m₁.nodupKeys m₂.nodupKeys fun k v => by
    show v ∈ m₁.lookup k ↔ v ∈ m₂.lookup k
    rw [h k]

theorem keysPerm {m₁ m₂ : GoMap V} (h : SameContents m₁ m₂) : m₁.keys.Perm m₂.keys :=
  (entriesPerm h).map _

theorem sameContentsMem {m₁ m₂ : GoMap V} (h : SameContents m₁ m₂) (a : String) : a ∈ m₁ ↔ a ∈ m₂ := by
  rw [memIffLookup, memIffLookup, h a]

theorem SameContents.insert {m₁ m₂ : GoMap V} (h : SameContents m₁ m₂) (k : String) (v : V) :
    SameContents (m₁.insert k v) (m₂.insert k v) := fun a => by
  rw [lookupInsert, lookupInsert, h a]

theorem SameContents.eraseAll {m₁ m₂ : GoMap V} (h : SameContents m₁ m₂) {ks ks' : List String}
    (hk : ks.Perm ks') : SameContents (Maps.eraseAll m₁ ks) (Maps.eraseAll m₂ ks') := fun a => by
  simp only [lookupEraseAll, h a, hk.mem_iff]

end

@[simp] theorem indexInsert (m : GoMap Int) (k a : String) (v : Int) :
    index (m.insert k v) a = if a = k then v else index m a := by
  unfold index; rw [lookupInsert]; split_ifs <;> rfl

@[simp] theorem indexErase (m : GoMap Int) (k a : String) : index (m.erase k) a = if a = k then 0 else index m a := by
  unfold index; rw [lookupErase]; split_ifs <;> rfl

theorem indexEraseAll (m : GoMap Int) (ks : List String) (a : String) :
    index (eraseAll m ks) a = if a ∈ ks then 0 else index m a := by
  unfold index; rw [lookupEraseAll]; split_ifs <;> rfl

theorem indexOfMem {m : GoMap Int} {e : Entry Int} (h : e ∈ m.entries) : index m e.1 = e.2 := by
  rw [index, AList.mem_lookup_iff.mpr h]; rfl

theorem SameContents.addTo {m₁ m₂ : GoMap Int} (h : SameContents m₁ m₂) (wrap : Int → Int) (k : String)
    (x : Int) : SameContents (Maps.addTo wrap m₁ k x) (Maps.addTo wrap m₂ k x) := by
  have hk : index m₁ k = index m₂ k := by rw [index, index, h k]
  rw [Maps.addTo, Maps.addTo, hk]
  exact h.insert k _

theorem entriesPermErase {V : Type} {m : GoMap V} {k : String} {b : V} (hk : m.lookup k = some b) :
    m.entries.Perm (⟨k, b⟩ :: (m.erase k).entries) := by
  have hsame : SameContents m (m.insert k b) := fun a => by
    rw [lookupInsert]; split_ifs with h
    · rw [h, hk]
    · rfl
  have := entriesPerm hsame
  rwa [AList.insert_entries] at this

theorem eraseOfNotMem {m : GoMap Int} {k : String} (hk : m.lookup k = none) : (m.erase k).entries = m.entries :=
  List.kerase_of_not_mem_keys fun hm => AList.lookup_eq_none.mp hk (AList.mem_keys.mpr hm)

theorem valueSumErase (m : GoMap Int) (k : String) : valueSum m = index m k + valueSum (m.erase k) := by
  cases hk : m.lookup k with
  | none => simp [index, hk, valueSum, eraseOfNotMem hk]
  | some b => simp [valueSum, ((entriesPermErase hk).map _).sum_eq, index, hk]

theorem valueSumInsert (m : GoMap Int) (k : String) (v : Int) :
    valueSum (m.insert k v) = valueSum m - index m k + v := by
  rw [valueSumErase m k, valueSum, AList.insert_entries]
  simp [valueSum, AList.erase]
  ring

/- The sum of a map's values, read through `index` over its keys in any order. -/
theorem valueSumKeys (m : GoMap Int) {ks : List String} (h : ks.Perm m.keys) :
    valueSum m = (ks.map (index m)).sum := by
  rw [(h.map _).sum_eq, AList.keys, List.keys, List.map_map, valueSum]
  congr 1
  exact List.map_congr_left fun e he => (indexOfMem he).symm

theorem valueSumPos {m : GoMap Int} (h : ∀ e ∈ m.entries, 0 ≤ e.2) : 0 ≤ valueSum m :=
  List.sum_nonneg fun x hx => by
    obtain ⟨e, he, rfl⟩ := List.mem_map.mp hx
    exact h e he

theorem indexLeValueSum {m : GoMap Int} (h : ∀ e ∈ m.entries, 0 ≤ e.2) (k : String) : index m k ≤ valueSum m := by
  have := valueSumPos (m := m.erase k) fun e he => h e (List.kerase_sublist _ _ |>.subset he)
  rw [valueSumErase m k]; omega

theorem memEntries {m : GoMap Int} {e : Entry Int} : e ∈ m.entries ↔ m.lookup e.1 = some e.2 :=
  AList.mem_lookup_iff.symm

theorem memEraseAll {m : GoMap Int} {ks : List String} {a : String} : a ∈ eraseAll m ks ↔ a ∉ ks ∧ a ∈ m := by
  rw [memIffLookup, memIffLookup, lookupEraseAll]; split_ifs with h <;> simp [h]

theorem entriesEraseAll {m : GoMap Int} {ks : List String} {e : Entry Int} (h : e ∈ (eraseAll m ks).entries) :
    e ∈ m.entries ∧ e.1 ∉ ks := by
  rw [memEntries, lookupEraseAll] at h
  split_ifs at h with hk
  exact ⟨memEntries.mpr h, hk⟩

theorem entriesInsert {m : GoMap Int} {k : String} {v : Int} {e : Entry Int} (h : e ∈ (m.insert k v).entries) :
    (e.1 = k ∧ e.2 = v) ∨ (e.1 ≠ k ∧ e ∈ m.entries) := by
  rw [memEntries, lookupInsert] at h
  split_ifs at h with hk
  · exact .inl ⟨hk, (Option.some.inj h).symm⟩
  · exact .inr ⟨hk, memEntries.mpr h⟩

/- The sum of a map's values, read through `index` over any duplicate-free list holding its keys. -/
theorem valueSumCover (m : GoMap Int) {ks : List String} (hnd : ks.Nodup) (hcov : ∀ k ∈ m, k ∈ ks) :
    valueSum m = (ks.map (index m)).sum := by
  induction ks generalizing m with
  | nil =>
    have : m.entries = [] := List.eq_nil_iff_forall_not_mem.mpr fun e he =>
      List.not_mem_nil _ (hcov e.1 (AList.mem_keys.mpr (List.mem_keys_of_mem he)))
    simp [valueSum, this]
  | cons k ks ih =>
    obtain ⟨hk, hnd⟩ := List.nodup_cons.mp hnd
    have hcov' : ∀ a ∈ m.erase k, a ∈ ks := fun a ha => by
      obtain ⟨hne, hm⟩ := AList.mem_erase.mp ha
      exact (List.mem_cons.mp (hcov a hm)).resolve_left hne
    rw [valueSumErase m k, ih (m.erase k) hnd hcov', List.map_cons, List.sum_cons]
    congr 2
    exact List.map_congr_left fun a ha => by rw [indexErase, if_neg (ne_of_mem_of_not_mem ha hk)]

theorem valueSumEraseAll (m : GoMap Int) {ks : List String} (hnd : ks.Nodup) :
    valueSum m = (ks.map (index m)).sum + valueSum (eraseAll m ks) := by
  induction ks generalizing m with
  | nil => simp [eraseAll]
  | cons k ks ih =>
    obtain ⟨hk, hnd⟩ := List.nodup_cons.mp hnd
    have hidx : ks.map (index (m.erase k)) = ks.map (index m) :=
      List.map_congr_left fun a ha => by rw [indexErase, if_neg (ne_of_mem_of_not_mem ha hk)]
    have := ih (m.erase k) hnd
    rw [hidx] at this
    rw [valueSumErase m k, this, List.map_cons, List.sum_cons, add_assoc]
    rfl

theorem valueSumAddTo (m : GoMap Int) (k : String) (x : Int) : valueSum (addTo id m k x) = valueSum m + x := by
  rw [addTo, valueSumInsert]; simp only [id]; ring

end P2Pool.Maps
