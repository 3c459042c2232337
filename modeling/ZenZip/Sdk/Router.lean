import ZenZip.Lib.Run
import ZenZip.Sdk.HttpRouter

namespace ZenZip

open Lib

variable {H B : Type}

/-- A function, of which the arity is known. -/
structure Middleware (B : Type) where
  length : Nat
  body : B

structure MiddlewareLayer (B : Type) where
  path : Option (List Char)
  handle : Middleware B
  isError : Bool

def middlewareLayer (handle : Middleware B) (path : Option (List Char)) : MiddlewareLayer B :=
  ⟨path, handle, 4 ≤ handle.length⟩

def stripSlash (path : List Char) : List Char :=
  if path.getLast? = some '/' then path.dropLast else path

/-- The mount path covers the request path, as texts. -/
def pathMatches (mount path : List Char) : Bool :=
  if mount = ['/'] ∨ mount = [] then true
  else path = stripSlash mount || (stripSlash mount ++ ['/']).isPrefixOf path

def MiddlewareLayer.accepts (layer : MiddlewareLayer B) (path : List Char) : Bool :=
  match layer.path with
  | none => true
  | some mount => mount = [] || pathMatches mount path

def leadingSlash (path : List Char) : List Char :=
  if path.head? = some '/' then path else '/' :: path

def joinPath (pre path : List Char) : List Char :=
  leadingSlash (stripSlash pre ++ leadingSlash path)

structure Route (H : Type) where
  method : List Char
  path : List Char
  handler : H

inductive Router (H B : Type)
  | mk (routes : List (Route H)) (middleware : List (MiddlewareLayer B))
  (mounts : List (List Char × Router H B))

structure MountedRoutes (H B : Type) where
  routes : List (Route H)
  middleware : List (MiddlewareLayer B)

def mountPath (pre : List Char) (path : Option (List Char)) : Option (List Char) :=
  if path.getD [] ≠ [] then some (joinPath pre (path.getD []))
  else if pre = ['/'] then none
  else some pre

mutual

def Router.collect (pre : List Char) : Router H B → MountedRoutes H B
  | .mk routes middleware mounts => {
      routes := routes.map (fun r => { r with path := joinPath pre r.path }) ++
        (collectMounts pre mounts).routes
      middleware := middleware.map (fun m => { m with path := mountPath pre m.path }) ++
        (collectMounts pre mounts).middleware
    }

def collectMounts (pre : List Char) : List (List Char × Router H B) → MountedRoutes H B
  | [] => ⟨[], []⟩
  | (sub, router) :: mounts => {
      routes := (router.collect (joinPath pre sub)).routes ++ (collectMounts pre mounts).routes
      middleware :=
        (router.collect (joinPath pre sub)).middleware ++ (collectMounts pre mounts).middleware
    }

end

section Segments

theorem pathSegments_append (x y : List Char) :
    pathSegments (x ++ '/' :: y) = pathSegments x ++ pathSegments y := by
  rw [pathSegments, List.splitOn_append_cons_self, List.filter_append]
  rfl

theorem pathSegments_nil : pathSegments [] = [] := by
  rw [pathSegments, List.splitOn_nil]
  rfl

theorem pathSegments_stripSlash (path : List Char) :
    pathSegments (stripSlash path) = pathSegments path := by
  rw [stripSlash]
  split
  · next h =>
      have happ : path = path.dropLast ++ '/' :: [] := (List.dropLast_append_getLast? '/' h).symm
      rw [happ, List.dropLast_concat, pathSegments_append, pathSegments_nil, List.append_nil]
  · rfl

theorem leadingSlash_eq (path : List Char) :
    ∃ rest, leadingSlash path = '/' :: rest ∧ pathSegments rest = pathSegments path := by
  rw [leadingSlash]
  split
  · next h =>
      cases path with
      | nil => cases h
      | cons c rest =>
          cases h
          exact ⟨rest, rfl, (pathSegments_slash rest).symm⟩
  · exact ⟨path, rfl, rfl⟩

/-- Joined paths are joined segment by segment, however their slashes stand. -/
theorem pathSegments_joinPath (pre path : List Char) :
    pathSegments (joinPath pre path) = pathSegments pre ++ pathSegments path := by
  obtain ⟨tail, htail, hsegs⟩ := leadingSlash_eq path
  obtain ⟨rest, hrest, hjoined⟩ := leadingSlash_eq (stripSlash pre ++ leadingSlash path)
  rw [joinPath, hrest, pathSegments_slash, hjoined, htail, pathSegments_append,
    pathSegments_stripSlash, hsegs]

end Segments

/-- The segments of a mount path; an absent one covers everything. -/
def mountSegments (path : Option (List Char)) : List (List Char) := pathSegments (path.getD [])

theorem mountSegments_mountPath (pre : List Char) (path : Option (List Char)) :
    mountSegments (mountPath pre path) = pathSegments pre ++ mountSegments path := by
  rw [mountPath]
  split
  · exact pathSegments_joinPath pre (path.getD [])
  · next h =>
      have hempty : path.getD [] = [] := not_not.mp h
      rw [mountSegments, mountSegments, hempty, pathSegments_nil, List.append_nil]
      split
      · next hroot =>
          subst hroot
          rw [pathSegments_slash]
          rfl
      · rfl

section Declared

/-- What a router declares, under the segments of the mounts around it. -/
structure Declared (H B : Type) where
  routes : List (List Char × List (List Char) × H)
  middleware : List (List (List Char) × Middleware B × Bool)

mutual

def Router.declared (base : List (List Char)) : Router H B → Declared H B
  | .mk routes middleware mounts => {
      routes := routes.map (fun r => (r.method, base ++ pathSegments r.path, r.handler)) ++
        (declaredMounts base mounts).routes
      middleware := middleware.map (fun m => (base ++ mountSegments m.path, m.handle, m.isError)) ++
        (declaredMounts base mounts).middleware
    }

def declaredMounts (base : List (List Char)) : List (List Char × Router H B) → Declared H B
  | [] => ⟨[], []⟩
  | (sub, router) :: mounts => {
      routes := (router.declared (base ++ pathSegments sub)).routes ++
        (declaredMounts base mounts).routes
      middleware :=
        (router.declared (base ++ pathSegments sub)).middleware ++
          (declaredMounts base mounts).middleware
    }

end

def MountedRoutes.declares (m : MountedRoutes H B) : Declared H B where
  routes := m.routes.map (fun r => (r.method, pathSegments r.path, r.handler))
  middleware := m.middleware.map (fun l => (mountSegments l.path, l.handle, l.isError))

mutual

theorem Router.collect_declares (pre : List Char) (r : Router H B) :
    (r.collect pre).declares = r.declared (pathSegments pre) := by
  obtain ⟨routes, middleware, mounts⟩ := r
  have hrec := collectMounts_declares pre mounts
  rw [Router.collect, Router.declared, ← hrec, MountedRoutes.declares, MountedRoutes.declares]
  simp only [List.map_append, List.map_map, Function.comp_def, pathSegments_joinPath,
    mountSegments_mountPath]

theorem collectMounts_declares (pre : List Char) (mounts : List (List Char × Router H B)) :
    (collectMounts pre mounts).declares = declaredMounts (pathSegments pre) mounts := by
  match mounts with
  | [] => rfl
  | (sub, router) :: mounts =>
      have hhead := Router.collect_declares (joinPath pre sub) router
      have hrest := collectMounts_declares pre mounts
      rw [pathSegments_joinPath] at hhead
      rw [collectMounts, declaredMounts, ← hhead, ← hrest]
      simp only [MountedRoutes.declares, List.map_append]

end

end Declared

inductive Callee (H B : Type)
  | fn (f : Middleware B)
  | router (r : Router H B)

structure App (H B : Type) where
  middleware : List (MiddlewareLayer B)
  /-- The trie holds routes for their handlers, so that a match says which route it found. -/
  router : HttpRouter (Route H)
  started : Bool

namespace App

def empty : App H B := ⟨[], .empty, false⟩

abbrev Called (H B : Type) := App H B × Option String

def route (app : App H B) (method path : List Char) (handler : H) : Called H B :=
  match app.router.add method path ⟨method, path, handler⟩ with
  | .error e => (app, some e)
  | .ok router => ({ app with router := router }, none)

def get (app : App H B) (path : List Char) (handler : H) : Called H B :=
  app.route "GET".toList path handler

def post (app : App H B) (path : List Char) (handler : H) : Called H B :=
  app.route "POST".toList path handler

def put (app : App H B) (path : List Char) (handler : H) : Called H B :=
  app.route "PUT".toList path handler

def patch (app : App H B) (path : List Char) (handler : H) : Called H B :=
  app.route "PATCH".toList path handler

def delete (app : App H B) (path : List Char) (handler : H) : Called H B :=
  app.route "DELETE".toList path handler

def addRoutes (app : App H B) : List (Route H) → Called H B
  | [] => (app, none)
  | r :: routes =>
      match app.route r.method r.path r.handler with
      | (app, some e) => (app, some e)
      | (app, none) => addRoutes app routes

def mountRouter (app : App H B) (pre : List Char) (router : Router H B) : Called H B :=
  let mounted := router.collect pre
  addRoutes { app with middleware := app.middleware ++ mounted.middleware } mounted.routes

/-- The layers before the first argument that is no function stay. -/
def push (path : Option (List Char)) (app : App H B) : List (Callee H B) → Called H B
  | [] => (app, none)
  | .fn f :: fs =>
      push path { app with middleware := app.middleware ++ [middlewareLayer f path] } fs
  | .router _ :: _ => (app, some "app.use() expects middleware function(s)")

def use (app : App H B) (path : Option (List Char)) (args : List (Callee H B)) : Called H B :=
  if app.started then (app, some "register middleware before app.start()")
  else
    match args with
    | [] => (app, some "app.use() expects at least one middleware function")
    | .router r :: _ => app.mountRouter (path.getD ['/']) r
    | .fn f :: fs => app.push path (.fn f :: fs)

/-- The part of `start` that serves: the health probes come after the routes of the app. -/
def start (app : App H B) (healthz readyz : H) : Called H B :=
  if app.started then (app, some "app already started")
  else addRoutes { app with started := true }
    [⟨"GET".toList, "/healthz".toList, healthz⟩, ⟨"GET".toList, "/readyz".toList, readyz⟩]

def stop (app : App H B) : App H B := { app with started := false }

end App

inductive App.Call (H B : Type)
  | use (path : Option (List Char)) (args : List (Callee H B))
  | route (method path : List Char) (handler : H)
  | start (healthz readyz : H)
  | stop

def App.perform (app : App H B) : App.Call H B → App H B
  | .use path args => (app.use path args).1
  | .route method path handler => (app.route method path handler).1
  | .start healthz readyz => (app.start healthz readyz).1
  | .stop => app.stop

/-- The apps that some sequence of calls builds, whatever the calls throw. -/
def App.Built : App H B → Prop :=
  Run (fun app call => some (app.perform call)) (fun _ _ => true) .empty

namespace App

/-- What a path leads to is a route of that method with a pattern that fits the path. -/
def Sound (app : App H B) : Prop :=
  ∀ method segs r, app.router.Reaches method segs r →
    method = toUpperCase r.method ∧
      List.Forall₂ Trie.Part.Fits ((pathSegments r.path).map part) segs

variable {app : App H B}

theorem Sound.route (h : app.Sound) (method path : List Char) (handler : H) :
    (app.route method path handler).1.Sound := by
  rw [App.route]
  split
  · exact h
  · next router hadd =>
      intro method' segs r hr
      rcases HttpRouter.reaches_add hadd hr with hr | ⟨rfl, hmethod, hfit⟩
      · exact h method' segs r hr
      · exact ⟨hmethod, hfit⟩

theorem Sound.addRoutes (h : app.Sound) (routes : List (Route H)) :
    (app.addRoutes routes).1.Sound := by
  induction routes generalizing app with
  | nil => exact h
  | cons r routes ih =>
      have hroute := h.route r.method r.path r.handler
      rw [App.addRoutes]
      cases hcall : app.route r.method r.path r.handler with
      | mk app' thrown =>
          rw [hcall] at hroute
          cases thrown with
          | some e => exact hroute
          | none => exact ih hroute

theorem Sound.push (h : app.Sound) (path : Option (List Char)) (args : List (Callee H B)) :
    (app.push path args).1.Sound := by
  induction args generalizing app with
  | nil => exact h
  | cons arg args ih =>
      cases arg with
      | fn f => exact ih h
      | router r => exact h

theorem Sound.use (h : app.Sound) (path : Option (List Char)) (args : List (Callee H B)) :
    (app.use path args).1.Sound := by
  unfold App.use
  split
  · exact h
  · cases args with
    | nil => exact h
    | cons arg args =>
        cases arg with
        | fn f => exact h.push path (.fn f :: args)
        | router r =>
            apply Sound.addRoutes
            exact h

theorem Sound.start (h : app.Sound) (healthz readyz : H) : (app.start healthz readyz).1.Sound := by
  rw [App.start]
  split
  · exact h
  · apply Sound.addRoutes
    exact h

theorem Sound.perform (h : app.Sound) (call : Call H B) : (app.perform call).Sound := by
  cases call with
  | use path args => exact h.use path args
  | route method path handler => exact h.route method path handler
  | start healthz readyz => exact h.start healthz readyz
  | stop => exact h

theorem Built.sound (h : app.Built) : app.Sound := by
  apply h.invariant Sound
  · intro method segs r hr
    exact absurd hr HttpRouter.not_reaches_empty
  · intro app call app' _ hs _ hstep
    cases hstep
    exact hs.perform call

theorem Built.fits (h : app.Built) {method path : List Char} {r : Route H} {params : Params}
    (hm : app.router.match? method path = .ok (some (r, params))) :
    method = toUpperCase r.method ∧ List.Forall₂ Trie.Part.Fits ((pathSegments r.path).map part)
      (pathSegments path) :=
  h.sound method (pathSegments path) r (HttpRouter.reaches_of_match hm)

end App

end ZenZip
