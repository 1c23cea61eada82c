import ClosureLang.Proofs.Layout.Expressions

/-! The text of a function is read back with its parameters and its signature. -/
namespace ClosureLang.Layout

open Grammar Peg ClosureLang.Tree

variable {src : ByteArray} {p : Nat} {text rest : String} {t : Tree}

def leafName (t : Tree) : String := t.name?.getD ""

/-- A parameter, behind its type if it has one. -/
def paramText (name tag : String) : String :=
  if tag = genericType then name else tag ++ " " ++ name

def resultText (tag : String) : String := if tag = genericType then "" else " -> " ++ tag

theorem mapM_name? {ts : List Tree} (h : ∀ t ∈ ts, ∃ o x, t = ident o x) :
    ts.mapM name? = some (ts.map leafName) := by
  induction ts with
  | nil => rfl
  | cons t ts ih =>
    obtain ⟨o, x, rfl⟩ := h t (by simp)
    simp [ih fun t ht => h t (by simp [ht]), name?, ident, leafName]

theorem annotateParams_zip {names tags : List String} (h : names.length ≤ tags.length) :
    annotateParams names tags = (names.zip tags).map fun y => paramText y.1 y.2 := by
  induction names generalizing tags with
  | nil => simp [annotateParams]
  | cons x names ih =>
    cases tags with
    | nil => simp at h
    | cons tag tags =>
      rw [annotateParams, ih (by simpa using h)]
      rfl

theorem annotateParams_nil (names : List String) : annotateParams names [] = names := by
  cases names <;> rfl

theorem isType_cases {t : Tree} (h : IsType t) : leafName t = "int" ∨ leafName t = "func" := by
  obtain ⟨o, x, rfl, rfl | rfl⟩ := h
  · exact .inl rfl
  · exact .inr rfl

theorem typeAt_ahead {tag : String} (htag : tag = "int" ∨ tag = "func")
    (h : Ahead src p (tag ++ rest)) (hrest : isParted rest = true) :
    ∃ start q, typeAt src p = some (ident start tag, q) ∧ Ahead src q rest := by
  obtain rfl | rfl := htag
  · obtain ⟨start, q, hword, hq⟩ := h.word rfl hrest
    exact ⟨start, q, by simp [typeAt, hword], hq⟩
  · obtain ⟨start, q, hword, hq⟩ := h.word rfl hrest
    have hint : wordAt src "int" p = none := wordAt_of_wordAt hword rfl rfl (by decide)
    exact ⟨start, q, by simp [typeAt, hword, hint], hq⟩

/-- A parameter as it was read, and as it was written with its tag. -/
structure SameParam (x : Option Tree × Tree) (y : Tree × Tree) : Prop where
  name : similar x.2 y.1 = true
  tag : similar (Pattern.tag x) y.2 = true
  annotated : x.1.isSome = true ↔ leafName y.2 ≠ genericType

theorem denotes_param {y : Tree × Tree} (hname : IsIdent y.1) (htag : IsTag y.2) :
    DenotesItem Pattern.param SameParam (paramText (leafName y.1) (leafName y.2)) y := by
  obtain ⟨u, v⟩ := y
  obtain ⟨o, x, rfl, hx⟩ := hname
  intro src p rest hrest ha
  rcases htag with ⟨o', tag, rfl, htag⟩ | ⟨o', rfl⟩
  · have hne : tag ≠ genericType := by
      rcases htag with rfl | rfl <;> decide
    have htext : paramText x tag = tag ++ (" " ++ x) := by
      rw [paramText, if_neg hne, String.append_assoc]
    change Ahead src p (paramText x tag ++ rest) at ha
    rw [htext, String.append_assoc, String.append_assoc] at ha
    obtain ⟨start, q₁, h₁, ha₁⟩ := typeAt_ahead htag ha (by simp [isParted]; rfl)
    obtain ⟨start', q₂, h₂, ha₂⟩ := ((ahead_blanks rfl).mp ha₁).ident hx hrest.parted
    refine ⟨(some (ident start tag), ident start' x), q₂, by simp [h₁, h₂], ⟨?_, ?_, ?_⟩, ha₂⟩
    · exact similar_ident
    · exact similar_ident
    · simpa [leafName, name?, ident] using hne
  · obtain ⟨start, q, hident, hq⟩ := Ahead.ident (x := x) ha hx hrest.parted
    have htype : typeAt src p = none := by
      simp [typeAt, wordAt_of_identAt hident (s := "int") rfl,
        wordAt_of_identAt hident (s := "func") rfl]
    refine ⟨(none, ident start x), q, by simp [htype, hident], ⟨?_, ?_, ?_⟩, hq⟩
    · exact similar_ident
    · exact similar_ident
    · simp [leafName, name?, ident]

/-- Where `text` stands, the block `t` is read up to offsets. -/
def DenotesBlock (text : String) (t : Tree) : Prop :=
  ∀ src p rest, Ahead src p (text ++ rest) →
    ∃ t' q, similar t' t = true ∧ Ahead src q rest ∧ read src .block p = some (t', q)

theorem param_closed (h : Ahead src p (")" ++ rest)) :
    Peg.eval src (read src) Pattern.param p = none := by
  have hnext : src[layoutEnd src p]? = some 41 := h.head rfl rfl
  have htype : typeAt src p = none := by
    simp only [typeAt, wordAt_none (s := "int") rfl (by rw [hnext]; decide),
      wordAt_none (s := "func") rfl (by rw [hnext]; decide)]
    rfl
  have hident : identAt src p = none := by
    have : isIdentStart 41 = false := rfl
    simp [identAt, hnext, this]
  simp [htype, hident]

/-- No result type stands in front of a block. -/
theorem resultAt_block {m : Tree × Nat} (hp : p ≤ src.size) (h : read src .block p = some m) :
    resultAt src p = (none, p) := by
  rw [read_block hp] at h
  obtain ⟨⟨start, stop⟩, hl, -⟩ := Option.bind_eq_some_iff.mp h
  obtain ⟨hh, hstart, -⟩ := litAt_some hl
  have harrow : litAt src "->" p = none := litAt_none rfl (by rw [← hstart, holds_head hh]; decide)
  simp [resultAt, harrow]

/-- The result type and the block behind it. -/
theorem read_result {v body : Tree} (hv : IsTag v) (hbody : DenotesBlock text body)
    (h : Ahead src p (resultText (leafName v) ++ (" " ++ (text ++ rest)))) :
    ∃ t' q, similar t' body = true ∧ Ahead src q rest ∧
      read src .block (resultAt src p).2 = some (t', q) ∧
      (∀ start : Nat, similar ((resultAt src p).1.getD (ident start genericType)) v = true) ∧
      ((resultAt src p).1.isSome = true ↔ leafName v ≠ genericType) := by
  rcases hv with ⟨o, tag, rfl, htag⟩ | ⟨o, rfl⟩
  · have hne : tag ≠ genericType := by
      rcases htag with rfl | rfl <;> decide
    have htext : resultText (leafName (ident o tag)) = " " ++ ("->" ++ (" " ++ tag)) := by
      rw [leafName, ident, name?, Option.getD_some, resultText, if_neg hne,
        show " -> " = " " ++ ("->" ++ " ") from rfl]
      simp only [String.append_assoc]
    simp only [htext, String.append_assoc] at h
    obtain ⟨start, q₁, h₁, ha₁⟩ := ((ahead_blanks rfl).mp h).lit rfl
    obtain ⟨start', q₂, h₂, ha₂⟩ :=
      typeAt_ahead htag ((ahead_blanks rfl).mp ha₁) (by simp [isParted]; rfl)
    obtain ⟨t', q₃, hsim, ha₃, h₃⟩ := hbody src q₂ rest ((ahead_blanks rfl).mp ha₂)
    have hresult : resultAt src p = (some (ident start' tag), q₂) := by simp [resultAt, h₁, h₂]
    rw [hresult]
    refine ⟨t', q₃, hsim, ha₃, h₃, fun _ => similar_ident, ?_⟩
    simpa [leafName, name?, ident] using hne
  · have htext : resultText (leafName (ident o genericType)) = "" := rfl
    rw [htext, String.empty_append] at h
    have h' := (ahead_blanks rfl).mp h
    obtain ⟨t', q, hsim, hq, hread⟩ := hbody src p rest h'
    rw [resultAt_block h.le hread]
    refine ⟨t', q, hsim, hq, hread, fun _ => similar_ident, ?_⟩
    simp [leafName, name?, ident]

/-- The signature of a function whose parameters have the tags `tags`, with the tag of the result at
the end: there is one if some tag is a type. -/
def Signed (sig tags : List Tree) : Prop :=
  (∃ o, sig = [form .signature o tags] ∧ ∃ v ∈ tags, leafName v ≠ genericType) ∨
    sig = [] ∧ ∀ v ∈ tags, leafName v = genericType

theorem annotated_iff {xs : List (Option Tree × Tree)} {ys : List (Tree × Tree)}
    (hxs : List.Forall₂ SameParam xs ys) :
    xs.any (·.1.isSome) = true ↔ ∃ y ∈ ys, leafName y.2 ≠ genericType := by
  induction hxs with
  | nil => simp
  | cons h _ ih =>
    simp only [List.any_cons, Bool.or_eq_true, List.exists_mem_cons_iff, h.annotated, ih]

theorem similar_signature {xs : List (Option Tree × Tree)} {ys : List (Tree × Tree)}
    {result : Option Tree} {v : Tree} {sig : List Tree} {start : Nat}
    (hxs : List.Forall₂ SameParam xs ys)
    (hresult : similar (result.getD (ident start genericType)) v = true)
    (hsome : result.isSome = true ↔ leafName v ≠ genericType)
    (hsig : Signed sig (ys.map Prod.snd ++ [v])) :
    agreeAll false
      (if result.isSome || xs.any (·.1.isSome) then
        [form .signature start (xs.map Pattern.tag ++ [result.getD (ident start genericType)])]
      else []) sig = true := by
  have hany : (result.isSome || xs.any (·.1.isSome)) = true ↔
      ∃ u ∈ ys.map Prod.snd ++ [v], leafName u ≠ genericType := by
    simp only [Bool.or_eq_true, hsome, annotated_iff hxs, List.mem_append, List.mem_map,
      List.mem_singleton, or_and_right, exists_or, exists_eq_left, exists_exists_and_eq_and]
    exact or_comm
  have htags : agreeAll false (xs.map Pattern.tag ++ [result.getD (ident start genericType)])
      (ys.map Prod.snd ++ [v]) = true := by
    refine agreeAll_of_similar (List.rel_append ?_ (.cons hresult .nil))
    rw [List.forall₂_map_left_iff, List.forall₂_map_right_iff]
    exact hxs.imp fun _ _ h => h.tag
  rcases hsig with ⟨o, rfl, hv⟩ | ⟨rfl, hv⟩
  · rw [if_pos (hany.mpr hv)]
    simp [htags]
  · rw [if_neg]
    · rfl
    · intro h
      obtain ⟨u, hu, hne⟩ := hany.mp h
      exact hne (hv u hu)

/-- The parameters of a function with their tags `ys` and the tag `v` of its result, generic where
the signature says nothing. -/
structure Annotates (params sig : List Tree) (ys : List (Tree × Tree)) (v : Tree) : Prop where
  params : ys.map Prod.fst = params
  idents : ∀ y ∈ ys, IsIdent y.1 ∧ IsTag y.2
  result : IsTag v
  signed : Signed sig (ys.map Prod.snd ++ [v])

def headerText (ys : List (Tree × Tree)) (v : Tree) : String :=
  "func(" ++ Text.join ", " (ys.map fun y => paramText (leafName y.1) (leafName y.2)) ++ ")" ++
    resultText (leafName v)

theorem denotes_function {o o' : Int} {params sig : List Tree} {ys : List (Tree × Tree)}
    {v body : Tree} (h : Annotates params sig ys v) (hbody : DenotesBlock text body) :
    Denotes 7 (headerText ys v ++ " " ++ text)
      (form .function o (form .parameters o' params :: body :: sig)) := by
  obtain ⟨rfl, hys, hv, hsig⟩ := h
  refine denotes_primary fun src p rest hrest ha => ?_
  simp only [headerText, show "func(" = "func" ++ "(" from rfl, String.append_assoc] at ha
  obtain ⟨start, q₁, h₁, ha₁⟩ := ha.word rfl (by simp [isParted]; rfl)
  have hitems : List.Forall₂ (DenotesItem Pattern.param SameParam)
      (ys.map fun y => paramText (leafName y.1) (leafName y.2)) ys := by
    rw [List.forall₂_map_left_iff, List.forall₂_same]
    exact fun y hy => denotes_param (hys y hy).1 (hys y hy).2
  obtain ⟨_, xs, q₂, h₂, hxs, ha₂⟩ := read_items hitems (fun p => param_closed) ha₁
  obtain ⟨body', q₃, hsim, ha₃, h₃, hresult, hsome⟩ := read_result hv hbody ha₂
  refine ⟨Pattern.functionTree start xs (resultAt src q₂).1 body', q₃, ?_, ha₃, ?_⟩
  · have hparams : agreeAll false (xs.map Prod.snd) (ys.map Prod.fst) = true := by
      apply agreeAll_of_similar
      rw [List.forall₂_map_left_iff, List.forall₂_map_right_iff]
      exact hxs.imp fun _ _ h => h.name
    have hsignature := similar_signature hxs (hresult start) hsome hsig
    simpa [Pattern.functionTree, hsim, hparams] using hsignature
  · have hnext := ha.head rfl rfl
    have hparen : litAt src "(" p = none := litAt_none rfl (by rw [hnext]; decide)
    rw [read_primary ha.le, eval_map, eval_parens, hparen, read_function ha.le, h₁,
      Option.bind_some, h₂, Option.bind_some, h₃]
    rfl

theorem annotates_unsigned {params : List Tree} (hparams : ∀ x ∈ params, IsIdent x) :
    Annotates params [] (params.map fun x => (x, ident 0 genericType)) (ident 0 genericType) where
  params := by simp [Function.comp_def]
  idents := by
    intro y hy
    obtain ⟨x, hx, rfl⟩ := List.mem_map.mp hy
    exact ⟨hparams x hx, .inr ⟨0, rfl⟩⟩
  result := .inr ⟨0, rfl⟩
  signed := by
    refine .inr ⟨rfl, fun v hv => ?_⟩
    simp only [List.mem_append, List.mem_map, List.mem_singleton] at hv
    obtain ⟨_, ⟨x, -, rfl⟩, rfl⟩ | rfl := hv
    · rfl
    · rfl

theorem annotates_signed {params tags : List Tree} {o : Int} {v : Tree}
    (hparams : ∀ x ∈ params, IsIdent x) (hlen : tags.length = params.length)
    (htags : ∀ t ∈ tags ++ [v], IsTag t) (htype : ∃ t ∈ tags ++ [v], IsType t) :
    Annotates params [form .signature o (tags ++ [v])] (params.zip tags) v where
  params := List.map_fst_zip (by omega)
  idents := by
    intro y hy
    exact ⟨hparams y.1 (List.of_mem_zip hy).1, htags y.2 (by simp [(List.of_mem_zip hy).2])⟩
  result := htags v (by simp)
  signed := by
    rw [List.map_snd_zip (by omega)]
    obtain ⟨t, ht, htype⟩ := htype
    refine .inl ⟨o, rfl, t, ht, ?_⟩
    rcases isType_cases htype with h | h <;> rw [h] <;> decide

/-- The header of a function gives the annotations of its signature. -/
theorem signatureText_annotates {params sig : List Tree} (hparams : ∀ x ∈ params, IsIdent x)
    (hsig : IsSignature params.length sig) :
    ∃ ys v, Annotates params sig ys v ∧ ∀ o o' body,
      signatureText (form .function o (form .parameters o' params :: body :: sig)) =
        .ok (headerText ys v) := by
  have hnames := mapM_name? fun x hx => (hparams x hx).leaf
  rcases hsig with rfl | ⟨start, tags, rfl, hlen, htags, htype⟩
  · refine ⟨_, _, annotates_unsigned hparams, fun o o' body => ?_⟩
    have htexts : (params.map fun x => (x, ident 0 genericType)).map
        (fun y => paramText (leafName y.1) (leafName y.2)) = params.map leafName := by
      rw [List.map_map]
      rfl
    simp [signatureText, signature?, form, child, children, typeTags?, paramNames?, hnames,
      annotateParams_nil, headerText, htexts, show resultText (leafName (ident 0 genericType)) = ""
        from rfl]
  · obtain rfl | ⟨tags, v, rfl⟩ := List.eq_nil_or_concat tags
    · simp at hlen
    rw [List.concat_eq_append] at hlen htags htype ⊢
    have hlen' : tags.length = params.length := by simpa using hlen
    have htagNames := mapM_name? fun t ht => (htags t ht).leaf
    refine ⟨_, _, annotates_signed hparams hlen' htags htype, fun o o' body => ?_⟩
    have htexts : (params.zip tags).map (fun y => paramText (leafName y.1) (leafName y.2)) =
        annotateParams (params.map leafName) ((tags ++ [v]).map leafName) := by
      have hzip : (params ++ []).zip (tags ++ [v]) = params.zip tags ++ [].zip [v] :=
        List.zip_append hlen'.symm
      rw [List.append_nil, List.zip_nil_left, List.append_nil] at hzip
      rw [annotateParams_zip (by simp; omega), List.zip_map, hzip, List.map_map]
      rfl
    have hresult :
        ((tags ++ [v]).map leafName)[(params.map leafName).length]? = some (leafName v) := by
      simp [hlen']
    have hsignature : signature? (form .function o
        (form .parameters o' params :: body :: [form .signature start (tags ++ [v])])) =
          some (headerText (params.zip tags) v) := by
      simp only [signature?, form, child, children, typeTags?, paramNames?, List.getElem?_cons_zero,
        List.getElem?_cons_succ, Option.getD_some, htagNames, hnames, Option.bind_eq_bind,
        Option.bind_some, hresult, headerText, htexts]
      rfl
    rw [signatureText, hsignature]

end ClosureLang.Layout
