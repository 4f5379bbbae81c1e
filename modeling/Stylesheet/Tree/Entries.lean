/-!
# Ordered entries

Lists of keys and values in which a key stands once.
-/

namespace Stylesheet.Entries

/-- Puts an entry where its key already stands, or at the end. -/
def put {α : Type} (key : String) (value : α) : List (String × α) → List (String × α)
  | [] => [(key, value)]
  | (k, v) :: es => if k = key then (k, value) :: es else (k, v) :: put key value es

/-- A repeated key keeps its first place and takes its last value. -/
def distinct {α : Type} (entries : List (String × α)) : List (String × α) :=
  entries.foldl (fun es (k, v) => put k v es) []

private theorem put_of_not_mem {α : Type} {key : String} {es : List (String × α)} (h : key ∉ es.map Prod.fst)
    (value : α) : put key value es = es ++ [(key, value)] := by
  induction es with
  | nil => rfl
  | cons e es ih =>
    simp only [List.map_cons, List.mem_cons, not_or] at h
    simp [put, Ne.symm h.1, ih h.2]

private theorem foldl_put {α : Type} (es seen : List (String × α)) (h : ((seen ++ es).map Prod.fst).Nodup) :
    es.foldl (fun es (k, v) => put k v es) seen = seen ++ es := by
  induction es generalizing seen with
  | nil => simp
  | cons e es ih =>
    have h' : e.1 ∉ seen.map Prod.fst := by
      simp only [List.map_append, List.map_cons, List.nodup_append, List.mem_cons] at h
      exact fun hm => h.2.2 _ hm _ (.inl rfl) rfl
    simp only [List.foldl_cons, put_of_not_mem h', ih (seen ++ [e]) (by simpa using h), List.append_assoc,
      List.singleton_append]

/-- Entries whose keys differ already are left alone. -/
theorem distinct_of_nodup {α : Type} {es : List (String × α)} (h : (es.map Prod.fst).Nodup) :
    distinct es = es := by
  simpa [distinct] using foldl_put es [] (by simpa using h)

end Stylesheet.Entries
