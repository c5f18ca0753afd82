import MosqCluster.Http.Parser.Types

/-!
# The URL automaton

`parse_url_char` of `server/http_parser.cpp`, which `http_parser_execute` calls for every byte of
the request target that does not end the current component.
-/

namespace MosqCluster.Http

/-- The cases `s_req_server_start` and `s_req_server` of `parse_url_char`, which
`s_req_server_with_at` falls through to. -/
def parseServerChar (ch : UInt8) : State :=
  if ch = '/' then .reqPath
  else if ch = '?' then .reqQueryStringStart
  else if ch = '@' then .reqServerWithAt
  else if isUserinfoChar ch || ch = '[' || ch = ']' then .reqServer
  else .dead

/-- `parse_url_char`: the state after the byte `ch` of the request target. -/
def parseUrlChar (s : State) (ch : UInt8) : State :=
  if ch = ' ' || ch = CR || ch = LF then .dead
  else if ch = '\t' || ch = '\x0c' then .dead
  else match s with
    | .reqSpacesBeforeUrl =>
      if ch = '/' || ch = '*' then .reqPath
      else if isAlpha ch then .reqSchema
      else .dead
    | .reqSchema =>
      if isAlpha ch then .reqSchema
      else if ch = ':' then .reqSchemaSlash
      else .dead
    | .reqSchemaSlash => if ch = '/' then .reqSchemaSlashSlash else .dead
    | .reqSchemaSlashSlash => if ch = '/' then .reqServerStart else .dead
    | .reqServerWithAt => if ch = '@' then .dead else parseServerChar ch
    | .reqServerStart => parseServerChar ch
    | .reqServer => parseServerChar ch
    | .reqPath =>
      if isUrlChar ch then .reqPath
      else if ch = '?' then .reqQueryStringStart
      else if ch = '#' then .reqFragmentStart
      else .dead
    | .reqQueryStringStart | .reqQueryString =>
      if isUrlChar ch then .reqQueryString
      else if ch = '?' then .reqQueryString
      else if ch = '#' then .reqFragmentStart
      else .dead
    | .reqQueryValueStart | .reqQueryValue =>
      if isUrlChar ch && !isDelimiter ch then .reqQueryValue
      else if ch = '&' then .reqQueryString
      else if ch = '#' then .reqFragmentStart
      else .dead
    | .reqFragmentStart =>
      if isUrlChar ch then .reqFragment
      else if ch = '?' then .reqFragment
      else if ch = '#' then .reqFragmentStart
      else .dead
    | .reqFragment =>
      if isUrlChar ch then .reqFragment
      else if ch = '?' || ch = '#' then .reqFragment
      else .dead
    | _ => .dead

end MosqCluster.Http
