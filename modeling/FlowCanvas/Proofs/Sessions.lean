import FlowCanvas.Service.Request
import Mathlib

/-!
# Requests one after the other

A service keeps nothing between requests but the cache in front of its catalog. A cache that is
filled by lookups holds answers of its catalog only, so that every lookup is answered as by the
catalog itself, and every request as by a service that was just set up.
-/

namespace FlowCanvas

namespace Catalog

lemma find?_put (c : Catalog) (key key' : TemplateKey) (n : FlowNode) :
    (c.put key n).find? key' = if key = key' then some n else c.find? key' := by
  unfold find? put
  by_cases hkey : key = key'
  · rw [List.find?_cons_of_pos (by simpa using hkey), if_pos hkey]
    rfl
  · rw [List.find?_cons_of_neg (by simpa using hkey), if_neg hkey, List.find?_filter]
    congr 2
    funext e
    by_cases he : e.1 = key'
    · simp [he, Ne.symm hkey]
    · simp [he]

lemma lookup_eq_ok_iff {c : Catalog} {codedata : Codedata} {n : FlowNode} :
    c.lookup codedata = .ok n ↔ c.find? (.ofCodedata codedata) = some n := by
  unfold lookup
  cases c.find? (.ofCodedata codedata) <;> simp

end Catalog

/-- What may happen to a catalog behind a cache. -/
inductive CacheStep where
  | lookup (codedata : Codedata)
  | invalidate

namespace CachedCatalog

/-- A cache that holds answers of its catalog only. -/
def Sound (t : CachedCatalog) : Prop :=
  ∀ key n, t.cache.find? key = some n → t.catalog.find? key = some n

variable {t : CachedCatalog}

lemma sound_ofCatalog (catalog : Catalog) : Sound (ofCatalog catalog) :=
  fun key n h => absurd h (by simp [ofCatalog, Catalog.empty, Catalog.find?])

/-- A sound cache cannot be told from its catalog. -/
lemma Sound.lookup_eq (h : t.Sound) : t.lookup = t.catalog.lookup := by
  funext codedata
  unfold lookup
  split
  · rename_i n hn
    exact (Catalog.lookup_eq_ok_iff.mpr (h _ n hn)).symm
  · rfl

lemma catalog_remember (t : CachedCatalog) (codedata : Codedata) :
    (t.remember codedata).catalog = t.catalog := by
  unfold remember
  split
  · split <;> rfl
  · rfl

/-- After a lookup the cache knows what the catalog knows of its key. -/
lemma Sound.find?_remember (h : t.Sound) (codedata : Codedata) (key : TemplateKey) :
    (t.remember codedata).cache.find? key =
      if TemplateKey.ofCodedata codedata = key then t.catalog.find? key
      else t.cache.find? key := by
  unfold remember
  rw [h.lookup_eq]
  split
  · rename_i n hn
    rw [Catalog.lookup_eq_ok_iff] at hn
    split
    · rename_i hcached
      split_ifs with hkey
      · subst hkey
        obtain ⟨m, hm⟩ := Option.isSome_iff_exists.mp hcached
        rw [hm, h _ m hm]
      · rfl
    · rw [Catalog.find?_put]
      split_ifs with hkey
      · rw [← hkey, hn]
      · rfl
  · rename_i e he
    split_ifs with hkey
    · subst hkey
      have hnone : t.catalog.find? (.ofCodedata codedata) = none := by
        refine Option.eq_none_iff_forall_ne_some.mpr fun n hn => ?_
        rw [Catalog.lookup_eq_ok_iff.mpr hn] at he
        simp at he
      rw [hnone]
      exact Option.eq_none_iff_forall_ne_some.mpr fun n hn => by
        simp [h _ n hn] at hnone
    · rfl

lemma Sound.remember (h : t.Sound) (codedata : Codedata) : (t.remember codedata).Sound := by
  intro key n hn
  rw [h.find?_remember] at hn
  rw [catalog_remember]
  split_ifs at hn
  · exact hn
  · exact h key n hn

lemma Sound.rememberAll (h : t.Sound) (list : List Codedata) :
    (t.rememberAll list).Sound ∧ (t.rememberAll list).catalog = t.catalog := by
  induction list generalizing t with
  | nil => exact ⟨h, rfl⟩
  | cons codedata list ih =>
    obtain ⟨hsound, hcatalog⟩ := ih (h.remember codedata)
    exact ⟨hsound, hcatalog.trans (catalog_remember t codedata)⟩

/-- The cache after a step. -/
def after (t : CachedCatalog) : CacheStep → CachedCatalog
  | .lookup codedata => t.remember codedata
  | .invalidate => t.invalidate

/-- The answers to the lookups among some steps, each from the cache as it is then. -/
def answers (t : CachedCatalog) : List CacheStep → List (Except TemplateError FlowNode)
  | [] => []
  | .lookup codedata :: steps => t.lookup codedata :: answers (t.remember codedata) steps
  | .invalidate :: steps => answers t.invalidate steps

/-- The answers of a catalog without a cache. -/
def plainAnswers (catalog : Catalog) : List CacheStep → List (Except TemplateError FlowNode)
  | [] => []
  | .lookup codedata :: steps => catalog.lookup codedata :: plainAnswers catalog steps
  | .invalidate :: steps => plainAnswers catalog steps

lemma Sound.after (h : t.Sound) (step : CacheStep) :
    (t.after step).Sound ∧ (t.after step).catalog = t.catalog := by
  cases step with
  | lookup codedata => exact ⟨h.remember codedata, catalog_remember t codedata⟩
  | invalidate => exact ⟨sound_ofCatalog t.catalog, rfl⟩

lemma Sound.run (h : t.Sound) (steps : List CacheStep) :
    (steps.foldl CachedCatalog.after t).Sound ∧
      (steps.foldl CachedCatalog.after t).catalog = t.catalog := by
  induction steps generalizing t with
  | nil => exact ⟨h, rfl⟩
  | cons step steps ih =>
    obtain ⟨hsound, hcatalog⟩ := ih (h.after step).1
    exact ⟨hsound, hcatalog.trans (h.after step).2⟩

lemma Sound.answers_eq (h : t.Sound) (steps : List CacheStep) :
    t.answers steps = plainAnswers t.catalog steps := by
  induction steps generalizing t with
  | nil => rfl
  | cons step steps ih =>
    cases step with
    | lookup codedata =>
      rw [answers, plainAnswers, ih (h.remember codedata), catalog_remember, h.lookup_eq]
    | invalidate =>
      rw [answers, plainAnswers]
      exact ih (h.after .invalidate).1

/-- The cache holds the keys that were looked up with success since it was emptied last, with what
the catalog answered. -/
lemma find?_run (catalog : Catalog) (steps : List CacheStep) (key : TemplateKey) (n : FlowNode) :
    (steps.foldl CachedCatalog.after (ofCatalog catalog)).cache.find? key = some n ↔
      ∃ before codedata later, steps = before ++ .lookup codedata :: later ∧
        .invalidate ∉ later ∧ TemplateKey.ofCodedata codedata = key ∧
        catalog.lookup codedata = .ok n := by
  induction steps using List.reverseRecOn with
  | nil => simp [ofCatalog, Catalog.empty, Catalog.find?]
  | append_singleton steps step ih =>
    obtain ⟨hsound, hcatalog⟩ := (sound_ofCatalog catalog).run steps
    rw [List.foldl_concat]
    cases step with
    | invalidate =>
      constructor
      · intro h
        simp [CachedCatalog.after, invalidate, Catalog.empty, Catalog.find?] at h
      · rintro ⟨before, codedata, later, hsteps, hlater, -, -⟩
        rcases List.eq_nil_or_concat later with rfl | ⟨later, last, rfl⟩
        · simp at hsteps
        · obtain ⟨-, hlast⟩ := List.append_inj' (hsteps.trans (by simp) :
            steps ++ [CacheStep.invalidate] = (before ++ .lookup codedata :: later) ++ [last]) rfl
          simp [← List.singleton_inj.mp hlast] at hlater
    | lookup codedata' =>
      rw [CachedCatalog.after, hsound.find?_remember, hcatalog]
      constructor
      · intro h
        split_ifs at h with hkey
        · exact ⟨steps, codedata', [], rfl, by simp, hkey,
            Catalog.lookup_eq_ok_iff.mpr (by rw [hkey]; exact h)⟩
        · obtain ⟨before, codedata, later, rfl, hlater, hfound⟩ := ih.mp h
          exact ⟨before, codedata, later ++ [.lookup codedata'], by simp, by simpa using hlater,
            hfound⟩
      · rintro ⟨before, codedata, later, hsteps, hlater, rfl, hn⟩
        split_ifs with hkey
        · exact Catalog.lookup_eq_ok_iff.mp hn
        · refine ih.mpr ?_
          rcases List.eq_nil_or_concat later with rfl | ⟨later, last, rfl⟩
          · obtain ⟨-, hlast⟩ := List.append_inj' hsteps rfl
            obtain ⟨rfl⟩ := List.singleton_inj.mp hlast
            exact absurd rfl hkey
          · obtain ⟨rfl, -⟩ := List.append_inj' (hsteps.trans (by simp) :
              steps ++ [CacheStep.lookup codedata'] =
                (before ++ .lookup codedata :: later) ++ [last]) rfl
            exact ⟨before, codedata, later, rfl, by simp at hlater; simpa using hlater.1, rfl, hn⟩

end CachedCatalog

/-- What may happen to a service over documents held in memory. -/
inductive Event where
  | insert (path : Path) (text : String)
  | remove (path : Path)
  | request (request : Request)

/-- A service over documents held in memory. -/
structure Session where
  service : Service
  documents : DocumentStore

namespace Session

def after (x : Session) : Event → Session
  | .insert path text => { x with documents := x.documents.insert path text }
  | .remove path => { x with documents := x.documents.remove path }
  | .request request => { x with service := (x.service.handle x.documents.read request).2 }

/-- The responses to the requests among some events. -/
def responses (x : Session) : List Event → List (Except ServiceError Response)
  | [] => []
  | .insert path text :: events => responses (x.after (.insert path text)) events
  | .remove path :: events => responses (x.after (.remove path)) events
  | .request request :: events =>
    (x.service.handle x.documents.read request).1 :: responses (x.after (.request request)) events

/-- The responses when every request goes to a service that was just set up. -/
def freshResponses (settings : Settings) (files : Workspace) (documents : DocumentStore) :
    List Event → List (Except ServiceError Response)
  | [] => []
  | .insert path text :: events =>
    freshResponses settings files (documents.insert path text) events
  | .remove path :: events => freshResponses settings files (documents.remove path) events
  | .request request :: events =>
    (Service.start settings files).bind (fun s => (s.handle documents.read request).1) ::
      freshResponses settings files documents events

end Session

namespace Service

/-- Two services that differ in nothing but what their caches hold. -/
structure Alike (s s' : Service) : Prop where
  settings : s.settings = s'.settings
  classes : s.classes = s'.classes
  builders : s.builders = s'.builders
  catalog : s.templates.catalog = s'.templates.catalog
  sound : s.templates.Sound
  sound' : s'.templates.Sound

variable {s s' : Service}

/-- What a cache holds does not show in any answer. -/
lemma Alike.answer_eq (h : Alike s s') (workspace : Workspace) (request : Request) :
    s.answer workspace request = s'.answer workspace request := by
  obtain ⟨settings, classes, builders, templates⟩ := s
  obtain ⟨settings', classes', builders', templates'⟩ := s'
  obtain ⟨rfl, rfl, rfl, hcatalog, hsound, hsound'⟩ := h
  have hlookup : templates.lookup = templates'.lookup := by
    rw [hsound.lookup_eq, hsound'.lookup_eq]
    exact congrArg Catalog.lookup hcatalog
  cases request <;> simp only [answer, flowModel, nodeTemplate, source, hlookup]

/-- A request changes nothing but the cache. -/
lemma Alike.handle (h : Alike s s') (workspace : Workspace) (request : Request) :
    Alike (s.handle workspace request).2 s' := by
  obtain ⟨hsound, hcatalog⟩ := h.sound.rememberAll (s.lookups workspace request)
  exact ⟨h.settings, h.classes, h.builders, hcatalog.trans h.catalog, hsound, h.sound'⟩

lemma alike_start {settings : Settings} {files : Workspace}
    (h : start settings files = .ok s) : Alike s s := by
  have hsound : s.templates.Sound := by
    unfold start at h
    split at h
    · simp at h
    · obtain rfl := Except.ok.inj h
      exact CachedCatalog.sound_ofCatalog _
  exact ⟨rfl, rfl, rfl, rfl, hsound, hsound⟩

end Service

namespace Session

lemma alike_after {x : Session} {s : Service} (h : Service.Alike x.service s) (event : Event) :
    Service.Alike (x.after event).service s := by
  cases event with
  | insert path text => exact h
  | remove path => exact h
  | request request => exact h.handle _ request

lemma alike_run {x : Session} {s : Service} (h : Service.Alike x.service s) (events : List Event) :
    Service.Alike (events.foldl after x).service s := by
  induction events generalizing x with
  | nil => exact h
  | cons event events ih => exact ih (alike_after h event)

lemma responses_of_alike {settings : Settings} {files : Workspace} {s : Service}
    (hstart : Service.start settings files = .ok s) (events : List Event) {x : Session}
    (h : Service.Alike x.service s) :
    responses x events = freshResponses settings files x.documents events := by
  induction events generalizing x with
  | nil => rfl
  | cons event events ih =>
    have hrest := ih (alike_after h event)
    cases event with
    | insert path text => exact hrest
    | remove path => exact hrest
    | request request =>
      rw [responses, freshResponses, hrest, hstart]
      exact congrArg (· :: _) (h.answer_eq x.documents.read request)

/-- Every request is answered as by a service that was just set up over the documents as they are
then. In the middle of a request too, whatever has been asked so far, a template is looked up as
in the catalog; and any catalog behind a cache answers as without it, through lookups that are
found, missed or in vain and through emptying it, and holds exactly what was found since then. -/
theorem responses_eq_fresh {settings : Settings} {files : Workspace} {s : Service}
    (hstart : Service.start settings files = .ok s) (documents : DocumentStore)
    (events : List Event) :
    responses ⟨s, documents⟩ events = freshResponses settings files documents events ∧
      (∀ asked, ((events.foldl after ⟨s, documents⟩).service.templates.rememberAll asked).lookup =
        s.templates.catalog.lookup) ∧
      ∀ (catalog : Catalog) (steps : List CacheStep),
        (CachedCatalog.ofCatalog catalog).answers steps =
          CachedCatalog.plainAnswers catalog steps ∧
        ∀ key n, (steps.foldl CachedCatalog.after (.ofCatalog catalog)).cache.find? key = some n ↔
          ∃ before codedata later, steps = before ++ .lookup codedata :: later ∧
            .invalidate ∉ later ∧ TemplateKey.ofCodedata codedata = key ∧
            catalog.lookup codedata = .ok n := by
  have hfresh := Service.alike_start hstart
  refine ⟨responses_of_alike hstart events hfresh, fun asked => ?_, fun catalog steps => ⟨?_, ?_⟩⟩
  · have hrun := alike_run (x := ⟨s, documents⟩) hfresh events
    obtain ⟨hsound, hcatalog⟩ := hrun.sound.rememberAll asked
    rw [hsound.lookup_eq, hcatalog, hrun.catalog]
  · exact (CachedCatalog.sound_ofCatalog catalog).answers_eq steps
  · exact CachedCatalog.find?_run catalog steps

/-- A template that is asked for twice, and a diagram that is asked for while its document is there
and when it is gone. -/
def visit : List Event :=
  [.request (.nodeTemplate (.external .actionCall "ballerina" "http" (some "Client") "get")),
    .insert ⟨"a.bal"⟩ "function f() \x7b g(); \x7d",
    .request (.flowModel ⟨"a.bal"⟩ ⟨0, 0⟩ ⟨0, 21⟩ none),
    .request (.nodeTemplate (.external .actionCall "ballerina" "http" (some "Client") "get")),
    .remove ⟨"a.bal"⟩,
    .request (.flowModel ⟨"a.bal"⟩ ⟨0, 0⟩ ⟨0, 21⟩ none)]

/-- A template, a diagram and a path that is not found, as the first, second and last of four
answers. -/
def answered? : List (Except ServiceError Response) → Option (FlowNode × Diagram × Path)
  | [.ok (.nodeTemplate n), .ok (.flowModel shown), _, .error (.documentNotFound path)] =>
    some (n, shown, path)
  | _ => none

lemma exists_of_answered? {list : List (Except ServiceError Response)}
    {test : FlowNode × Diagram × Path → Bool} (h : (answered? list).any test = true) :
    ∃ n shown again path, list = [.ok (.nodeTemplate n), .ok (.flowModel shown), again,
      .error (.documentNotFound path)] ∧ test (n, shown, path) = true := by
  obtain ⟨found, hfound, htest⟩ := Option.any_eq_true _ _ |>.mp h
  unfold answered? at hfound
  split at hfound
  · obtain rfl := Option.some.inj hfound
    exact ⟨_, _, _, _, rfl, htest⟩
  · simp at hfound

/-- The template is found, kept and found again; the document is shown and then not found. -/
theorem responses_eq_fresh_templates :
    ∃ s n shown, Service.start .standard (fun _ => none) = .ok s ∧
      responses ⟨s, .empty⟩ visit = freshResponses .standard (fun _ => none) .empty visit ∧
      responses ⟨s, .empty⟩ visit = [.ok (.nodeTemplate n), .ok (.flowModel shown),
        .ok (.nodeTemplate n), .error (.documentNotFound ⟨"a.bal"⟩)] ∧
      n.metadata.label = "get" ∧ shown.nodes.map (·.codedata.sourceCode) = [some "g();"] ∧
      (visit.foldl after ⟨s, .empty⟩).service.templates.cache.size = 1 := by
  obtain ⟨s, hstart⟩ : ∃ s, Service.start .standard (fun _ => none) = .ok s := ⟨_, rfl⟩
  have hfresh := (responses_eq_fresh hstart .empty visit).1
  have hcheck : (answered? (freshResponses .standard (fun _ => none) .empty visit)).any
      (fun found => found.1.metadata.label = "get" ∧
        found.2.1.nodes.map (·.codedata.sourceCode) = [some "g();"] ∧ found.2.2 = ⟨"a.bal"⟩) =
        true := by
    decide +kernel
  obtain ⟨n, shown, again, path, hresponses, hanswered⟩ := exists_of_answered? hcheck
  obtain ⟨hlabel, hsource, rfl⟩ := of_decide_eq_true hanswered
  -- The first and the third request are one request, which no document is read for.
  obtain rfl : .ok (.nodeTemplate n) = again :=
    (List.cons.inj hresponses).1.symm.trans
      (List.cons.inj (List.cons.inj (List.cons.inj hresponses).2).2).1
  refine ⟨s, n, shown, hstart, hfresh, hfresh.trans hresponses, hlabel, hsource, ?_⟩
  obtain rfl := Except.ok.inj hstart
  decide +kernel

end Session

end FlowCanvas
