import PlanLang.Ty

/-!
# Types as sets of names

A type is determined by its names.  Putting names into a type that come after all it has, in
increasing order, adds them at the end; so a type is made up again from its own names.
-/

namespace PlanLang

/-- The union with a type of one name adds that name. -/
theorem Ty.union_primitive (s : Ty) (name : String) :
  s.union (.primitive name) = s.insert name
  := by
  simp [union, primitive, insert, toLower_toLower]

/-- Types with the same names are equal. -/
theorem Ty.eq_of_names {s t : Ty} (h : s.names = t.names) :
  s = t
  := by
  cases s
  cases t
  cases h
  rfl

/-- The only name of a primitive type is the given one, in lower case. -/
theorem Ty.names_primitive (name : String) :
  (primitive name).names = [name.toLower]
  := rfl

/-- Adding a name to a type puts it among the names, in lower case. -/
theorem Ty.names_insert (t : Ty) (name : String) :
  (t.insert name).names = insertName name.toLower t.names
  := rfl

/-- Putting names into a type adds these names only, in lower case. -/
theorem Ty.mem_names_foldl_insert {names : List String} {t : Ty} {m : String} :
  m ∈ (names.foldl insert t).names ↔ (∃ n ∈ names, m = n.toLower) ∨ m ∈ t.names
  := by
  induction names generalizing t with
  | nil => simp
  | cons n names ih =>
    rw [List.foldl_cons, ih, names_insert, mem_insertName, ← or_assoc,
      or_comm (b := m = n.toLower)]
    simp only [List.mem_cons, exists_eq_or_imp]

/-- A name after all names of a list is put at its end. -/
theorem insertName_of_forall_lt {name : String} {ns : List String} (h : ∀ n ∈ ns, n < name) :
  insertName name ns = ns ++ [name]
  := by
  induction ns with
  | nil => rfl
  | cons n ns ih =>
    have hn : n < name := h n List.mem_cons_self
    have hlt : ¬ name < n := fun hlt => String.lt_irrefl _ (String.lt_trans hlt hn)
    have hne : ¬ name = n := fun heq => hlt (heq ▸ hn)
    rw [insertName, if_neg hlt, if_neg hne, ih fun m hm => h m (List.mem_cons_of_mem _ hm)]
    rfl

/-- Names that come in increasing order after those of a type are added at the end. -/
theorem Ty.names_foldl_insert (ns : List String) :
  ∀ s : Ty, (s.names ++ ns).Pairwise (· < ·) → (∀ n ∈ ns, n.toLower = n) →
    (ns.foldl Ty.insert s).names = s.names ++ ns
  := by
  induction ns with
  | nil => simp
  | cons n ns ih =>
    intro s hsorted hlower
    have hlt : ∀ m ∈ s.names, m < n := by
      intro m hm
      apply (List.pairwise_append.mp hsorted).2.2 m hm n List.mem_cons_self
    have hnames : (s.insert n).names = s.names ++ [n] := by
      rw [names_insert, hlower n List.mem_cons_self, insertName_of_forall_lt hlt]
    rw [List.foldl_cons, ih, hnames, List.append_assoc, List.singleton_append]
    · rwa [hnames, List.append_assoc, List.singleton_append]
    · intro m hm
      apply hlower m (List.mem_cons_of_mem _ hm)

/-- The type with all the names of a type is that type. -/
theorem Ty.either?_names (t : Ty) :
  Ty.either? t.names = some t
  := by
  have hsorted := t.names_sorted
  have hlower := t.names_lower
  cases h : t.names with
  | nil => exact absurd h t.names_ne_nil
  | cons n ns =>
    rw [h] at hsorted hlower
    have hn : (primitive n).names = [n] := by
      rw [names_primitive, hlower n List.mem_cons_self]
    rw [either?, Option.some_inj]
    apply eq_of_names
    rw [names_foldl_insert, hn, h, List.singleton_append]
    · rwa [hn]
    · intro m hm
      apply hlower m (List.mem_cons_of_mem _ hm)

theorem Ty.names_of_primitiveName? {t : Ty} {name : String} (h : t.primitiveName? = some name) :
  t.names = [name]
  := by
  unfold primitiveName? at h
  split at h
  · rename_i n hn
    obtain rfl := Option.some.inj h
    exact hn
  · contradiction

/-- A type with one name is the type of that name. -/
theorem Ty.eq_primitive {t : Ty} {name : String} (h : t.primitiveName? = some name) :
  t = .primitive name
  := by
  have hnames := names_of_primitiveName? h
  have hlower : name.toLower = name := by
    apply t.names_lower
    rw [hnames]
    apply List.mem_cons_self
  apply eq_of_names
  rw [hnames, names_primitive, hlower]

end PlanLang
