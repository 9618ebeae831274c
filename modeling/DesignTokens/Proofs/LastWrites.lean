import Mathlib.Data.List.Basic
import Mathlib.Data.List.Induction
import Mathlib.Data.List.Nodup
import DesignTokens.OrderedMap

set_option autoImplicit false

namespace DesignTokens.OrderedMap

variable {α β : Type}

@[simp]
theorem keys_cons (p : String × α) (m : List (String × α)) : keys (p :: m) = p.1 :: keys m := rfl

theorem get?_cons (p : String × α) (m : List (String × α)) (key : String) :
    get? (p :: m) key = if p.1 = key then some p.2 else get? m key := rfl

theorem get?_append (m n : List (String × α)) (key : String) :
    get? (m ++ n) key = (get? m key).or (get? n key) := by
  induction m with
  | nil => simp
  | cons p rest ih => by_cases same : p.1 = key <;> simp [get?_cons, same, ih]

theorem mem_keys_iff (m : List (String × α)) (key : String) :
    key ∈ keys m ↔ ∃ value, get? m key = some value := by
  induction m with
  | nil => simp [keys]
  | cons p rest ih =>
    by_cases same : p.1 = key
    · simp [get?_cons, same]
    · simp [get?_cons, same, ih, Ne.symm same]

theorem get?_eq_some_iff (m : List (String × α)) (distinct : Distinct m) (key : String)
    (value : α) : get? m key = some value ↔ (key, value) ∈ m := by
  induction m with
  | nil => simp
  | cons p rest ih =>
    obtain ⟨first, restDistinct⟩ := List.nodup_cons.mp distinct
    by_cases same : p.1 = key
    · have later : (key, value) ∉ rest := fun member =>
        first (same ▸ List.mem_map_of_mem (f := Prod.fst) member)
      obtain ⟨_, own⟩ := p
      obtain rfl := same
      simp [get?_cons, later, eq_comm]
    · have other : (key, value) ≠ p := fun equal => same (by rw [← equal])
      simp [get?_cons, same, other, ih restDistinct]

@[simp]
theorem keys_append (m n : List (String × α)) : keys (m ++ n) = keys m ++ keys n := by
  simp [keys]

theorem eq_filterMap_keys (m : List (String × α)) (distinct : Distinct m) :
    m = (keys m).filterMap fun key => (get? m key).map fun value => (key, value) := by
  induction m with
  | nil => rfl
  | cons p rest ih =>
    obtain ⟨key, value⟩ := p
    have absent : key ∉ keys rest := (List.nodup_cons.mp distinct).1
    have later : ∀ other ∈ keys rest,
        ((get? ((key, value) :: rest) other).map fun found => (other, found)) =
          (get? rest other).map fun found => (other, found) := by
      intro other member
      have differs : key ≠ other := fun same => absent (same ▸ member)
      simp [get?, differs]
    have tail := ih (List.nodup_cons.mp distinct).2
    change (key, value) :: rest = (key :: keys rest).filterMap _
    rw [List.filterMap_cons_some (b := (key, value)) (by simp [get?]),
      List.filterMap_congr later, ← tail]

theorem overlay_append (base first second : List (String × α)) :
    overlay base (first ++ second) = overlay (overlay base first) second := by
  simp [overlay]

theorem overlay_concat (base top : List (String × α)) (p : String × α) :
    overlay base (top ++ [p]) = insert (overlay base top) p.1 p.2 := by
  simp [overlay]

@[simp]
theorem ofList_nil : ofList ([] : List (String × α)) = [] := rfl

theorem ofList_concat (writes : List (String × α)) (p : String × α) :
    ofList (writes ++ [p]) = insert (ofList writes) p.1 p.2 := overlay_concat [] writes p

theorem distinct_overlay (base top : List (String × α)) (distinct : Distinct base) :
    Distinct (overlay base top) := by
  induction top generalizing base with
  | nil => exact distinct
  | cons p rest ih => exact ih _ (distinct.insert p.1 p.2)

theorem distinct_ofList (writes : List (String × α)) : Distinct (ofList writes) :=
  distinct_overlay [] writes (by simp [Distinct, keys])

theorem insert_absent (m : List (String × α)) {key : String} (absent : key ∉ keys m) (value : α) :
    insert m key value = m ++ [(key, value)] := by
  induction m with
  | nil => rfl
  | cons p rest ih =>
    obtain ⟨other, later⟩ := not_or.mp (List.mem_cons.not.mp absent)
    simp [insert, Ne.symm other, ih later]

theorem ofList_of_distinct (writes : List (String × α)) (distinct : Distinct writes) :
    ofList writes = writes := by
  induction writes using List.reverseRecOn with
  | nil => rfl
  | append_singleton rest p ih =>
    unfold Distinct at *
    rw [keys_append] at distinct
    obtain ⟨earlier, _, apart⟩ := List.nodup_append.mp distinct
    have absent : p.1 ∉ keys rest := fun member => apart p.1 member p.1 (by simp [keys]) rfl
    rw [ofList_concat, ih earlier, insert_absent rest absent]

theorem eraseDups_concat (l : List String) (a : String) :
    (l ++ [a]).eraseDups = if a ∈ l then l.eraseDups else l.eraseDups ++ [a] := by
  rw [List.eraseDups_append]
  by_cases member : a ∈ l <;> simp [member, List.removeAll, List.eraseDups_cons]

theorem nodup_eraseDups (l : List String) : l.eraseDups.Nodup := by
  induction l using List.reverseRecOn with
  | nil => simp
  | append_singleton rest a ih =>
    rw [eraseDups_concat]
    split
    next => exact ih
    next absent => exact List.nodup_append.mpr ⟨ih, by simp, by grind [List.mem_eraseDups]⟩

theorem keys_ofList (writes : List (String × α)) :
    keys (ofList writes) = (keys writes).eraseDups := by
  induction writes using List.reverseRecOn with
  | nil => rfl
  | append_singleton rest p ih =>
    rw [ofList_concat, keys_insert, keys_append]
    change _ = (keys rest ++ [p.1]).eraseDups
    simp only [ih, eraseDups_concat, List.mem_eraseDups]

theorem get?_ofList (writes : List (String × α)) (key : String) :
    get? (ofList writes) key = get? writes.reverse key := by
  induction writes using List.reverseRecOn with
  | nil => rfl
  | append_singleton rest p ih =>
    have newest : (rest ++ [p]).reverse = p :: rest.reverse := by simp
    rw [ofList_concat, get?_insert, newest, get?_cons, ih]

def lastWrites (writes : List (String × α)) : List (String × α) :=
  (keys writes).eraseDups.filterMap fun key =>
    (get? writes.reverse key).map fun value => (key, value)

theorem ofList_eq_lastWrites (writes : List (String × α)) : ofList writes = lastWrites writes := by
  have listed := eq_filterMap_keys (ofList writes) (distinct_ofList writes)
  simpa only [keys_ofList, get?_ofList, lastWrites] using listed

theorem keys_lastWrites (writes : List (String × α)) :
    keys (lastWrites writes) = (keys writes).eraseDups := by
  rw [← ofList_eq_lastWrites, keys_ofList]

theorem get?_lastWrites (writes : List (String × α)) (key : String) :
    get? (lastWrites writes) key = get? writes.reverse key := by
  rw [← ofList_eq_lastWrites, get?_ofList]

theorem get?_of_mem_lastWrites {writes : List (String × α)} {w : String × α}
    (member : w ∈ lastWrites writes) : get? writes.reverse w.1 = some w.2 := by
  obtain ⟨key, _, kept⟩ := List.mem_filterMap.mp member
  obtain ⟨value, found, rfl⟩ := Option.map_eq_some_iff.mp kept
  exact found

theorem mem_of_mem_insert (m : List (String × α)) (key : String) (value : α) (p : String × α)
    (member : p ∈ insert m key value) : p = (key, value) ∨ p ∈ m := by
  induction m with
  | nil => simpa [insert] using member
  | cons q rest ih => grind [insert]

theorem mem_of_mem_overlay (base top : List (String × α)) (p : String × α)
    (member : p ∈ overlay base top) : p ∈ base ∨ p ∈ top := by
  induction top generalizing base with
  | nil => exact .inl member
  | cons q rest ih =>
    rcases ih _ member with earlier | later
    · rcases mem_of_mem_insert base q.1 q.2 p earlier with same | kept
      · exact .inr (by simp [same])
      · exact .inl kept
    · exact .inr (List.mem_cons_of_mem _ later)

theorem mem_of_mem_ofList (writes : List (String × α)) (p : String × α)
    (member : p ∈ ofList writes) : p ∈ writes := by
  simpa using mem_of_mem_overlay [] writes p member

def renamed (f : String → String) (m : List (String × α)) : List (String × α) :=
  m.map fun p => (f p.1, p.2)

@[simp]
theorem renamed_append (f : String → String) (m n : List (String × α)) :
    renamed f (m ++ n) = renamed f m ++ renamed f n := by
  simp [renamed]

theorem insert_renamed (f : String → String) (m : List (String × α)) (key : String) (value : α)
    (apart : ∀ other ∈ keys m, f other = f key → other = key) :
    insert (renamed f m) (f key) value = renamed f (insert m key value) := by
  induction m with
  | nil => rfl
  | cons p rest ih =>
    have tail := ih fun other member => apart other (List.mem_cons_of_mem _ member)
    by_cases same : p.1 = key
    · simp [renamed, insert, same]
    · have differs : f p.1 ≠ f key := fun equal => same (apart p.1 (by simp) equal)
      simpa [renamed, insert, same, differs] using tail

theorem get?_renamed (f : String → String) (m : List (String × α)) (key : String)
    (apart : ∀ other ∈ keys m, f other = f key → other = key) :
    get? (renamed f m) (f key) = get? m key := by
  induction m with
  | nil => rfl
  | cons p rest ih =>
    have tail := ih fun other member => apart other (List.mem_cons_of_mem _ member)
    by_cases same : p.1 = key
    · simp [renamed, get?_cons, same]
    · have differs : f p.1 ≠ f key := fun equal => same (apart p.1 (by simp) equal)
      simpa [renamed, get?_cons, same, differs] using tail

theorem ofList_renamed (f : String → String) (writes : List (String × α))
    (apart : ∀ a ∈ keys writes, ∀ b ∈ keys writes, f a = f b → a = b) :
    ofList (renamed f writes) = renamed f (ofList writes) := by
  induction writes using List.reverseRecOn with
  | nil => rfl
  | append_singleton rest p ih =>
    have earlier := ih fun a ha b hb => apart a (by simp [ha]) b (by simp [hb])
    have last : ∀ other ∈ keys (ofList rest), f other = f p.1 → other = p.1 := by
      intro other member
      rw [keys_ofList, List.mem_eraseDups] at member
      exact apart other (by simp [member]) p.1 (by simp)
    have step := insert_renamed f (ofList rest) p.1 p.2 last
    rw [← earlier] at step
    simpa [ofList_concat, renamed] using step

def replacements [DecidableEq α] (m : List (String × α)) :
    List (String × α) → List (String × α × α)
  | [] => []
  | w :: rest =>
      (((get? m w.1).filter (· ≠ w.2)).map fun previous => (w.1, previous, w.2)).toList ++
        replacements (insert m w.1 w.2) rest

theorem replacements_append [DecidableEq α] (m first second : List (String × α)) :
    replacements m (first ++ second) =
      replacements m first ++ replacements (overlay m first) second := by
  induction first generalizing m with
  | nil => rfl
  | cons w rest ih => simp [replacements, ih, overlay]

theorem replacements_singleton [DecidableEq α] (m : List (String × α)) (w : String × α) :
    replacements m [w] = [] ↔ ∀ previous, get? m w.1 = some previous → previous = w.2 := by
  cases found : get? m w.1 <;> simp [replacements, found, Option.filter]

theorem mem_of_get?_ofList {writes : List (String × α)} {key : String} {value : α}
    (found : get? (ofList writes) key = some value) : (key, value) ∈ writes :=
  mem_of_mem_ofList writes _ ((get?_eq_some_iff _ (distinct_ofList writes) key value).mp found)

theorem replacements_eq_nil_iff [DecidableEq α] (writes : List (String × α)) :
    replacements [] writes = [] ↔ ∀ w ∈ writes, get? (ofList writes) w.1 = some w.2 := by
  induction writes using List.reverseRecOn with
  | nil => simp [replacements]
  | append_singleton rest w ih =>
    rw [replacements_append, List.append_eq_nil_iff, ih, replacements_singleton]
    change _ ∧ (∀ previous, get? (ofList rest) w.1 = some previous → previous = w.2) ↔ _
    simp only [ofList_concat, get?_insert]
    constructor
    · rintro ⟨kept, same⟩ v member
      rcases List.mem_append.mp member with earlier | last
      · by_cases equal : w.1 = v.1
        · simp [equal, same v.2 (equal ▸ kept v earlier)]
        · simpa [equal] using kept v earlier
      · obtain rfl := List.mem_singleton.mp last
        simp
    · intro kept
      have agree : ∀ v ∈ rest, w.1 = v.1 → w.2 = v.2 := fun v earlier equal => by
        simpa [equal] using kept v (List.mem_append_left _ earlier)
      refine ⟨fun v earlier => ?_, fun previous found => ?_⟩
      · by_cases equal : w.1 = v.1
        · have keyed : v.1 ∈ keys (ofList rest) := by
            rw [keys_ofList, List.mem_eraseDups]
            exact List.mem_map_of_mem earlier
          obtain ⟨value, found⟩ := (mem_keys_iff _ _).mp keyed
          have last : w.2 = value := agree (v.1, value) (mem_of_get?_ofList found) equal
          rw [found, ← last, agree v earlier equal]
        · simpa [equal] using kept v (List.mem_append_left _ earlier)
      · exact (agree _ (mem_of_get?_ofList found) rfl).symm

theorem replacements_eq_nil_of_nodup [DecidableEq α] {writes : List (String × α)}
    (nodup : (keys writes).Nodup) : replacements [] writes = [] := by
  refine (replacements_eq_nil_iff writes).mpr fun w member => ?_
  have distinct : Distinct writes.reverse := by
    simpa [Distinct, keys, List.nodup_reverse] using nodup
  rw [get?_ofList, get?_eq_some_iff _ distinct]
  simpa using member

def insertWithin (m : List (String × List (String × α))) (part key : String) (value : α) :
    List (String × List (String × α)) :=
  insert m part (insert ((get? m part).getD []) key value)

def overlayWithin (base : List (String × List (String × α)))
    (writes : List (String × String × α)) : List (String × List (String × α)) :=
  writes.foldl (fun m w => insertWithin m w.1 w.2.1 w.2.2) base

theorem overlayWithin_append (base : List (String × List (String × α)))
    (first second : List (String × String × α)) :
    overlayWithin base (first ++ second) = overlayWithin (overlayWithin base first) second := by
  simp [overlayWithin]

def within (writes : List (String × String × α)) (part : String) : List (String × α) :=
  (writes.filter fun w => w.1 == part).map Prod.snd

theorem within_absent (writes : List (String × String × α)) (part : String)
    (absent : part ∉ keys writes) : within writes part = [] := by
  simp only [within, List.map_eq_nil_iff, List.filter_eq_nil_iff, beq_iff_eq]
  intro w written same
  exact absent (same ▸ List.mem_map_of_mem written)

theorem within_concat (writes : List (String × String × α)) (w : String × String × α)
    (part : String) :
    within (writes ++ [w]) part =
      if w.1 = part then within writes part ++ [w.2] else within writes part := by
  by_cases same : w.1 = part <;> simp [within, same]

def lastWritesWithin (writes : List (String × String × α)) : List (String × List (String × α)) :=
  (keys writes).eraseDups.map fun part => (part, lastWrites (within writes part))

theorem get?_tabulated (parts : List String) (f : String → β) (key : String) :
    get? (parts.map fun part => (part, f part)) key = if key ∈ parts then some (f key) else none := by
  induction parts with
  | nil => simp
  | cons part rest ih =>
    by_cases same : part = key
    · simp [get?_cons, same]
    · simp [get?_cons, same, ih, Ne.symm same]

theorem insert_tabulated (parts : List String) (f : String → β) (key : String) (value : β)
    (nodup : parts.Nodup) :
    insert (parts.map fun part => (part, f part)) key value =
      (if key ∈ parts then parts else parts ++ [key]).map fun part =>
        (part, if part = key then value else f part) := by
  induction parts with
  | nil => simp [insert]
  | cons part rest ih =>
    have absent := (List.nodup_cons.mp nodup).1
    have tail := ih (List.nodup_cons.mp nodup).2
    by_cases same : part = key
    · subst same
      have kept : ∀ other ∈ rest, (other, if other = part then value else f other) =
          (other, f other) := by
        intro other member
        have differs : other ≠ part := fun equal => absent (equal ▸ member)
        simp [differs]
      simp [insert, List.map_congr_left kept]
    · simp only [List.map_cons, insert, same, if_false, tail, List.mem_cons, Ne.symm same,
        false_or]
      split <;> simp [same]

theorem overlayWithin_eq_lastWritesWithin (writes : List (String × String × α)) :
    overlayWithin [] writes = lastWritesWithin writes := by
  unfold lastWritesWithin
  simp only [← ofList_eq_lastWrites]
  induction writes using List.reverseRecOn with
  | nil => rfl
  | append_singleton rest w ih =>
    obtain ⟨part, key, value⟩ := w
    rw [overlayWithin_append, ih, keys_append]
    simp only [overlayWithin, List.foldl_cons, List.foldl_nil, insertWithin, get?_tabulated,
      insert_tabulated _ _ _ _ (nodup_eraseDups _), List.mem_eraseDups]
    change _ = (keys rest ++ [part]).eraseDups.map _
    rw [eraseDups_concat]
    apply List.map_congr_left
    intro other member
    rw [within_concat]
    by_cases same : part = other
    · subst same
      simp only [if_true, ofList_concat]
      by_cases written : part ∈ keys rest
      · simp [written]
      · simp [written, within_absent rest part written]
    · simp [same, Ne.symm same]

theorem lastWritesWithin_ne_nil {writes : List (String × String × α)}
    {part : String × List (String × α)} (member : part ∈ lastWritesWithin writes) :
    part.2 ≠ [] := by
  obtain ⟨key, written, rfl⟩ := List.mem_map.mp member
  rw [List.mem_eraseDups] at written
  obtain ⟨w, listed, rfl⟩ := List.mem_map.mp written
  have inside : w.2.1 ∈ keys (lastWrites (within writes w.1)) := by
    rw [keys_lastWrites, List.mem_eraseDups]
    exact List.mem_map_of_mem (List.mem_map_of_mem (List.mem_filter.mpr ⟨listed, by simp⟩))
  intro empty
  simp only at empty
  simp [empty, keys] at inside

theorem lastWrites_renamed (f : String → String) (writes : List (String × α))
    (apart : ∀ a ∈ keys writes, ∀ b ∈ keys writes, f a = f b → a = b) :
    lastWrites (renamed f writes) = renamed f (lastWrites writes) := by
  simpa only [ofList_eq_lastWrites] using ofList_renamed f writes apart

theorem mem_keys_of_mem_within {writes : List (String × String × α)} {part name : String}
    (member : name ∈ keys (within writes part)) : ∃ w ∈ writes, w.2.1 = name := by
  simp only [keys, within, List.map_map, List.mem_map, List.mem_filter] at member
  obtain ⟨w, ⟨written, _⟩, rfl⟩ := member
  exact ⟨w, written, rfl⟩

theorem exists_part_iff (writes : List (String × String × α)) (key : String) :
    (∃ part ∈ lastWritesWithin writes, key ∈ keys part.2) ↔ ∃ w ∈ writes, w.2.1 = key := by
  simp only [lastWritesWithin, List.mem_map, List.mem_eraseDups, exists_exists_and_eq_and,
    keys_lastWrites]
  constructor
  · rintro ⟨part, _, member⟩
    exact mem_keys_of_mem_within member
  · rintro ⟨w, written, rfl⟩
    refine ⟨w.1, List.mem_map_of_mem written, ?_⟩
    exact List.mem_map_of_mem (List.mem_map_of_mem (List.mem_filter.mpr ⟨written, by simp⟩))

theorem eraseDups_map (f : String → String) (l : List String)
    (apart : ∀ a b, f a = f b → a = b) : (l.map f).eraseDups = l.eraseDups.map f := by
  induction l using List.reverseRecOn with
  | nil => rfl
  | append_singleton rest a ih =>
    have same : f a ∈ rest.map f ↔ a ∈ rest := by
      constructor
      · intro member
        obtain ⟨b, earlier, equal⟩ := List.mem_map.mp member
        exact apart b a equal ▸ earlier
      · exact List.mem_map_of_mem
    rw [List.map_append, List.map_singleton, eraseDups_concat, eraseDups_concat, ih]
    by_cases earlier : a ∈ rest <;> simp [same, earlier]

theorem lastWritesWithin_renamed (g f : String → String) (writes : List (String × String × α))
    (partsApart : ∀ a b, g a = g b → a = b)
    (keysApart : ∀ v ∈ writes, ∀ w ∈ writes, f v.2.1 = f w.2.1 → v.2.1 = w.2.1) :
    lastWritesWithin (writes.map fun w => (g w.1, f w.2.1, w.2.2)) =
      (lastWritesWithin writes).map fun part => (g part.1, renamed f part.2) := by
  have parts : keys (writes.map fun w => (g w.1, f w.2.1, w.2.2)) = (keys writes).map g := by
    simp [keys]
  have ownWrites (part : String) :
      within (writes.map fun w => (g w.1, f w.2.1, w.2.2)) (g part) =
        renamed f (within writes part) := by
    have samePart (w : String × String × α) : (g w.1 == g part) = (w.1 == part) := by
      by_cases same : w.1 = part
      · simp [same]
      · have differs : g w.1 ≠ g part := fun equal => same (partsApart _ _ equal)
        simp [same, differs]
    simp [within, renamed, List.filter_map, Function.comp_def, samePart]
  have ownKeysApart (part : String) : ∀ a ∈ keys (within writes part),
      ∀ b ∈ keys (within writes part), f a = f b → a = b := by
    intro a ha b hb
    obtain ⟨v, writtenV, rfl⟩ := mem_keys_of_mem_within ha
    obtain ⟨w, writtenW, rfl⟩ := mem_keys_of_mem_within hb
    exact keysApart v writtenV w writtenW
  unfold lastWritesWithin
  rw [parts, eraseDups_map g _ partsApart, List.map_map, List.map_map]
  apply List.map_congr_left
  intro part _
  simp only [Function.comp_apply, ownWrites, lastWrites_renamed f _ (ownKeysApart part)]

end DesignTokens.OrderedMap
